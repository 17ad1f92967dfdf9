import Adele.Provider.Types
import Mathlib.Data.List.Nodup

/-!
# The global registry

Model of `RegisterGlobalProvider` and `GetRegisteredProviders` (`provider/provider.go:7-24`).
The process-wide slice `globalProviders` is passed and returned explicitly.

* A call that panics is `.error`, with the panic value of `provider.go:13`. The append comes
  after the loop that panics, so a caller that recovers (as `TestRegisterGlobalProviderDuplicate`
  does) goes on with the registry as it was: `registryAfter`.
* `GetRegisteredProviders` copies the slice. Lean lists are values, so the copy is the list and
  no write to it can reach the registry.

Results:
* `registerGlobalProvider_error_iff`, `registerGlobalProvider_ok` — one call panics exactly on a
  name already registered, and otherwise appends.
* `registry_invariant` — along every run from the empty registry the names stay pairwise
  distinct, and the registry is the list of the calls that returned, in call order.
* `outcomes_at` — the `i`-th call of a run from the empty registry returns exactly when
  no earlier call, accepted or not, used its name.
-/

namespace Adele

variable {W : Type}

/-- The panic value of a duplicate registration (`provider.go:13`). -/
def duplicateMessage (name : String) : String :=
  "provider with name \x27" ++ name ++ "\x27 already registered"

/-- `RegisterGlobalProvider`: the registry after the call, or the panic. -/
def registerGlobalProvider (globalProviders : List (ServiceProvider W))
    (provider : ServiceProvider W) : Except String (List (ServiceProvider W)) :=
  if globalProviders.any (fun p => p.name == provider.name) then
    .error (duplicateMessage provider.name)
  else
    .ok (globalProviders ++ [provider])

/-- `GetRegisteredProviders`: a copy of the registry. -/
def getRegisteredProviders (globalProviders : List (ServiceProvider W)) :
    List (ServiceProvider W) :=
  globalProviders

/-- The registry after one call, a panic recovered by the caller. -/
def registryAfter (globalProviders : List (ServiceProvider W)) (provider : ServiceProvider W) :
    List (ServiceProvider W) :=
  match registerGlobalProvider globalProviders provider with
  | .ok gp => gp
  | .error _ => globalProviders

/-- The registry after a sequence of calls. -/
def registryAfterAll (globalProviders : List (ServiceProvider W))
    (calls : List (ServiceProvider W)) : List (ServiceProvider W) :=
  calls.foldl registryAfter globalProviders

/-- For each call of a run, whether it returned. -/
def outcomes : List (ServiceProvider W) → List (ServiceProvider W) → List Bool
  | _, [] => []
  | gp, p :: ps => (registerGlobalProvider gp p).toBool :: outcomes (registryAfter gp p) ps

/-- The calls of a run from the empty registry that returned, in call order. -/
def acceptedCalls (calls : List (ServiceProvider W)) : List (ServiceProvider W) :=
  (calls.zip (outcomes [] calls)).filterMap fun c => if c.2 then some c.1 else none

/-- The names of a registry. -/
abbrev names (gp : List (ServiceProvider W)) : List String := gp.map ServiceProvider.name

/-! ## One call -/

theorem registerGlobalProvider_eq (gp : List (ServiceProvider W)) (p : ServiceProvider W) :
    registerGlobalProvider gp p =
      if p.name ∈ names gp then .error (duplicateMessage p.name) else .ok (gp ++ [p]) := by
  by_cases h : p.name ∈ names gp <;> simp_all [registerGlobalProvider]

theorem registerGlobalProvider_error_iff (gp : List (ServiceProvider W)) (p : ServiceProvider W) :
    (∃ msg, registerGlobalProvider gp p = .error msg) ↔ ∃ q ∈ gp, q.name = p.name := by
  rw [registerGlobalProvider_eq]
  split <;> simp_all

theorem registerGlobalProvider_ok {gp gp' : List (ServiceProvider W)} {p : ServiceProvider W}
    (h : registerGlobalProvider gp p = .ok gp') : gp' = gp ++ [p] := by
  rw [registerGlobalProvider_eq] at h
  split at h <;> simp_all

theorem registryAfter_eq (gp : List (ServiceProvider W)) (p : ServiceProvider W) :
    registryAfter gp p = if p.name ∈ names gp then gp else gp ++ [p] := by
  by_cases h : p.name ∈ names gp <;> simp only [registryAfter, registerGlobalProvider_eq, h] <;> rfl

theorem toBool_registerGlobalProvider (gp : List (ServiceProvider W)) (p : ServiceProvider W) :
    (registerGlobalProvider gp p).toBool = decide (p.name ∉ names gp) := by
  rw [registerGlobalProvider_eq]
  split <;> simp_all [Except.toBool]

/-- The step lemma: a call keeps the names pairwise distinct. -/
theorem nodup_registryAfter {gp : List (ServiceProvider W)} (h : (names gp).Nodup)
    (p : ServiceProvider W) : (names (registryAfter gp p)).Nodup := by
  rw [registryAfter_eq]
  split
  · exact h
  · simp_all [List.nodup_append]

/-! ## Runs -/

theorem nodup_registryAfterAll :
    ∀ (gp calls : List (ServiceProvider W)), (names gp).Nodup →
      (names (registryAfterAll gp calls)).Nodup
  | _, [], h => h
  | gp, p :: ps, h => nodup_registryAfterAll (registryAfter gp p) ps (nodup_registryAfter h p)

theorem registryAfterAll_eq_accepted :
    ∀ (gp calls : List (ServiceProvider W)),
      registryAfterAll gp calls =
        gp ++ (calls.zip (outcomes gp calls)).filterMap fun c => if c.2 then some c.1 else none
  | gp, [] => by simp [registryAfterAll]
  | gp, p :: ps => by
    have ih := registryAfterAll_eq_accepted (registryAfter gp p) ps
    simp only [registryAfterAll, List.foldl_cons, outcomes, List.zip_cons_cons,
      List.filterMap_cons] at ih ⊢
    rw [ih, toBool_registerGlobalProvider, registryAfter_eq]
    split <;> simp_all

/-- **The registry invariant.** One call panics exactly when a provider of its name is
registered and otherwise appends its provider; so along every run from the empty registry the
names stay pairwise distinct, and `GetRegisteredProviders` returns the calls that returned, in
call order. -/
theorem registry_invariant (calls : List (ServiceProvider W)) :
    (∀ gp (p : ServiceProvider W),
      (∃ msg, registerGlobalProvider gp p = .error msg) ↔ ∃ q ∈ gp, q.name = p.name) ∧
    (∀ gp gp' (p : ServiceProvider W), registerGlobalProvider gp p = .ok gp' → gp' = gp ++ [p]) ∧
    (names (getRegisteredProviders (registryAfterAll [] calls))).Nodup ∧
    getRegisteredProviders (registryAfterAll [] calls) = acceptedCalls calls :=
  ⟨registerGlobalProvider_error_iff, fun _ _ _ => registerGlobalProvider_ok,
    nodup_registryAfterAll [] calls List.nodup_nil, registryAfterAll_eq_accepted [] calls⟩

/-! ## Which calls panic -/

theorem mem_names_registryAfter (gp : List (ServiceProvider W)) (p : ServiceProvider W)
    (n : String) : n ∈ names (registryAfter gp p) ↔ n ∈ names gp ∨ n = p.name := by
  rw [registryAfter_eq]
  by_cases hp : p.name ∈ names gp
  · simp only [hp, if_true, iff_self_or]
    exact fun h => h ▸ hp
  · simp [hp, names]

/-- Every name of the calls so far is registered: an accepted call added it, and a rejected one
found it there. -/
theorem names_registryAfterAll :
    ∀ (gp calls : List (ServiceProvider W)) (n : String),
      n ∈ names (registryAfterAll gp calls) ↔ n ∈ names gp ∨ n ∈ names calls
  | gp, [], n => by simp [registryAfterAll]
  | gp, p :: ps, n => by
    rw [registryAfterAll, List.foldl_cons, ← registryAfterAll, names_registryAfterAll _ ps n,
      mem_names_registryAfter]
    simp [names, or_assoc]

theorem outcomes_at :
    ∀ (gp calls : List (ServiceProvider W)) (i : Nat),
      (outcomes gp calls)[i]? =
        calls[i]?.map fun p => decide (p.name ∉ names (registryAfterAll gp (calls.take i)))
  | _, [], i => by simp [outcomes]
  | gp, p :: ps, 0 => by simp [outcomes, registryAfterAll, toBool_registerGlobalProvider]
  | gp, p :: ps, i + 1 => by
    simp only [outcomes, List.getElem?_cons_succ, List.take_succ_cons]
    exact outcomes_at (registryAfter gp p) ps i

/-- A call of a run from the empty registry returns exactly when no earlier call used its
name. -/
theorem outcomes_nil_at (calls : List (ServiceProvider W)) (i : Nat) :
    (outcomes [] calls)[i]? = calls[i]?.map fun p => decide (p.name ∉ names (calls.take i)) := by
  rw [outcomes_at]
  congr 1
  funext p
  simp only [names_registryAfterAll, names, List.map_nil, List.not_mem_nil, false_or]

end Adele
