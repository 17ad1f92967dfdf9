import Adele.Provider.Lifecycle
import Mathlib.Data.List.Chain
import Mathlib.Logic.Function.Basic

/-!
# The lifecycle of one provider

The spec states what a load does to each provider as a state machine (§4.4): `Unregistered →
Skipped` for a disabled provider, `Unregistered → Configured? → Registered → Booted`, a failed
`Boot` of an optional provider that the load passes over, and `LoadAborted` at the callback that
stops the load. This module states that machine and proves that the log of every load is a run
of it.

* `Stage.next` is the transition on one callback and the error it returned. There is none for
  anything else: a second `Register`, a `Boot` before `Register`, a callback to a provider the
  load aborted at.
* `runStages` runs the machine over a log, each entry moving the provider it names; `none` when
  an entry has no transition.
* `phaseOne_stages` and `phaseTwo_stages` follow the phases one provider at a time. The names of
  the registry are distinct, as `RegisterGlobalProvider` keeps them, so the callbacks to one
  provider move its stage alone.
* `Stage.rank` orders the stages and `Call.kind` the callbacks; every transition moves a
  provider past the place of its callback (`Stage.rank_next`), so along a run the callbacks to one
  provider come in lifecycle order (`runStages_chain`).
* `fatal` marks a failed callback that is not an optional provider's `Boot`: exactly the entries
  that move a provider to `aborted`, where a run then keeps it. `AbortedAt` says that a failed
  load left one provider `aborted` and ended its log with the fatal entry whose error it returns.

Results:
* `loadProviders_lifecycle` — the log of every load is a run of the machine. It leaves every
  disabled provider untouched (`Skipped`); after a load that returns `nil`, every enabled
  provider `booted`, or optional with a failed boot; after a load that fails, exactly one
  provider `aborted`, and the log ends with the fatal failure of a callback to it, whose load
  error the load returns.
* `loadProviders_callbacks_in_order` — from every registry `RegisterGlobalProvider` can reach, a
  load makes at most one `Configure`, one `Register` and one `Boot` to each provider, in that
  order.
* `loadProviders_fails_iff` — from every such registry, a load returns an error exactly when one
  of its callbacks failed other than the `Boot` of an optional provider.
-/

namespace Adele

variable {W : Type}

/-- The stage of one provider in a load (§4.4 of the spec). -/
inductive Stage where
  /-- Not reached yet; for a disabled provider, `Skipped`. -/
  | unregistered
  | configured
  | registered
  | booted
  /-- `Boot` failed and the provider is optional: the load passed over it. -/
  | bootFailed
  /-- A callback of the provider failed and the load stopped there (`LoadAborted`). -/
  | aborted
  deriving DecidableEq, Repr

/-- The transition on a callback `c` that returned `r`, for a provider that is `optional` or not;
`none` where the machine has none. -/
def Stage.next (optional : Bool) : Stage → Call → Option GoError → Option Stage
  | .unregistered, .configure .., none => some .configured
  | .unregistered, .configure .., some _ => some .aborted
  | .unregistered, .register _, none => some .registered
  | .unregistered, .register _, some _ => some .aborted
  | .configured, .register _, none => some .registered
  | .configured, .register _, some _ => some .aborted
  | .registered, .boot _, none => some .booted
  | .registered, .boot _, some _ => some (if optional then .bootFailed else .aborted)
  | _, _, _ => none

/-- Whether the provider of `R` named `name` reports itself optional. -/
def optionalIn (R : List (ServiceProvider W)) (name : String) : Bool :=
  R.any fun q => decide (q.name = name ∧ q.isOptional = some true)

/-- Run the machine over a log from the stages `σ`: each entry moves the provider it names;
`none` when an entry has no transition. -/
def runStages (optional : String → Bool) :
    (String → Stage) → List (Call × Option GoError) → Option (String → Stage)
  | σ, [] => some σ
  | σ, (c, r) :: rest =>
    (Stage.next (optional c.name) (σ c.name) c r).bind fun s =>
      runStages optional (Function.update σ c.name s) rest

/-- A log entry that moves its provider to `aborted`: a failed callback other than the `Boot` of
an optional provider. -/
def fatal (optional : String → Bool) (x : Call × Option GoError) : Bool :=
  x.2.isSome && !(x.1.isBoot && optional x.1.name)

/-- The log ends with a fatal failure of a callback to the provider `name`, and `err` is the
error the load returns for it. -/
def FailsLast (optional : String → Bool) (log : List (Call × Option GoError)) (name : String)
    (err : GoError) : Prop :=
  ∃ c inner, log.getLast? = some (c, some inner) ∧ fatal optional (c, some inner) = true ∧
    c.name = name ∧ err = c.loadError inner

/-- The stages `σ` after a load of `l` that failed with `err` and left the log `log`: exactly one
provider of `l` is `aborted`, and the log ends with the fatal failure of a callback to it, whose
load error is `err`. -/
def AbortedAt (optional : String → Bool) (l : List (ServiceProvider W))
    (log : List (Call × Option GoError)) (σ : String → Stage) (err : GoError) : Prop :=
  ∃ prov ∈ l, σ prov.name = .aborted ∧
    (∀ q ∈ l, σ q.name = .aborted → q.name = prov.name) ∧ FailsLast optional log prov.name err

/-! ## Running the machine -/

theorem runStages_append (o : String → Bool) :
    ∀ (σ : String → Stage) (l₁ l₂ : List (Call × Option GoError)),
      runStages o σ (l₁ ++ l₂) = (runStages o σ l₁).bind fun σ' => runStages o σ' l₂
  | _, [], _ => rfl
  | σ, (c, r) :: l₁, l₂ => by
    simp only [List.cons_append, runStages]
    cases Stage.next (o c.name) (σ c.name) c r with
    | none => rfl
    | some s => exact runStages_append o _ l₁ l₂

/-- One callback moves the provider it goes to by one transition. -/
theorem runStages_invoke {o : String → Bool} {σ₀ σ : String → Stage} {e : Env W}
    (h : runStages o σ₀ e.log = some σ) (c : Call) (f : Callback W) :
    runStages o σ₀ (e.invoke c f).1.log =
      (Stage.next (o c.name) (σ c.name) c (e.invoke c f).2).map (Function.update σ c.name) := by
  simp only [Env.invoke, runStages_append, h, Option.some_bind, runStages]
  cases Stage.next (o c.name) (σ c.name) c (f e.app).2 <;> rfl

/-! ## What a run allows one provider -/

/-- How far along its lifecycle a provider is. -/
def Stage.rank : Stage → Nat
  | .unregistered => 0
  | .configured => 1
  | .registered => 2
  | .booted | .bootFailed | .aborted => 3

/-- The place of a callback in a provider's lifecycle: `Configure`, `Register`, then `Boot`. -/
def Call.kind : Call → Nat
  | .configure .. => 1
  | .register _ => 2
  | .boot _ => 3

/-- The step lemma: a transition on `c` starts before `c`'s place and ends at or after it. -/
theorem Stage.rank_next {o : Bool} {s s' : Stage} {c : Call} {r : Option GoError}
    (h : s.next o c r = some s') : s.rank < c.kind ∧ c.kind ≤ s'.rank := by
  unfold Stage.next at h
  split at h <;> (try split at h) <;> cases h <;> simp [Stage.rank, Call.kind]

/-- The run lemma: along a run, the callbacks to one provider move it strictly forward, each
past the stage it started the run in. -/
theorem runStages_chain {o : String → Bool} :
    ∀ {σ σ' : String → Stage} {log : List (Call × Option GoError)},
      runStages o σ log = some σ' → ∀ n,
        List.Chain (· < ·) (σ n).rank (((log.map Prod.fst).filter (·.name == n)).map Call.kind)
  | _, _, [], _, _ => List.Chain.nil
  | σ, _, (c, r) :: rest, h, n => by
    simp only [runStages, Option.bind_eq_some] at h
    obtain ⟨s, hs, h⟩ := h
    have ih := runStages_chain h n
    by_cases hn : c.name = n
    · subst hn
      have hstep := Stage.rank_next hs
      rw [Function.update_same] at ih
      simp only [List.map_cons, List.filter_cons, beq_self_eq_true, if_true, List.chain_cons]
      exact ⟨hstep.1, List.Chain'.imp_head (fun h => lt_of_le_of_lt hstep.2 h) ih⟩
    · rw [Function.update_noteq (Ne.symm hn)] at ih
      simpa [List.filter_cons, hn] using ih

theorem Stage.next_eq_aborted {o : Bool} {s s' : Stage} {c : Call} {r : Option GoError}
    (h : s.next o c r = some s') : s' = .aborted ↔ (r.isSome && !(c.isBoot && o)) = true := by
  unfold Stage.next at h
  split at h <;> (try split at h) <;> cases h <;> simp_all [Call.isBoot]

theorem Stage.next_aborted (o : Bool) (c : Call) (r : Option GoError) :
    Stage.next o .aborted c r = none := by
  cases c <;> cases r <;> rfl

/-- `aborted` is final: a run keeps a provider there. -/
theorem runStages_aborted {o : String → Bool} {n : String} :
    ∀ {σ σ' : String → Stage} {log : List (Call × Option GoError)},
      runStages o σ log = some σ' → σ n = .aborted → σ' n = .aborted
  | _, _, [], h, hn => by cases h; exact hn
  | σ, _, (c, r) :: rest, h, hn => by
    simp only [runStages, Option.bind_eq_some] at h
    obtain ⟨s, hs, h⟩ := h
    have hc : c.name ≠ n := fun hc => by
      rw [hc, hn, Stage.next_aborted] at hs
      cases hs
    exact runStages_aborted h (by rw [Function.update_noteq (Ne.symm hc)]; exact hn)

/-- A fatal entry of a run leaves its provider `aborted`. -/
theorem runStages_aborted_of_fatal {o : String → Bool} :
    ∀ {σ σ' : String → Stage} {log : List (Call × Option GoError)},
      runStages o σ log = some σ' → ∀ x ∈ log, fatal o x = true → σ' x.1.name = .aborted
  | _, _, [], _, _, hx, _ => absurd hx (List.not_mem_nil _)
  | σ, _, (c, r) :: rest, h, x, hx, hf => by
    simp only [runStages, Option.bind_eq_some] at h
    obtain ⟨s, hs, h⟩ := h
    rcases List.mem_cons.mp hx with rfl | hx
    · exact runStages_aborted h (by rw [Function.update_same, Stage.next_eq_aborted hs]; exact hf)
    · exact runStages_aborted_of_fatal h x hx hf

/-- A provider a run leaves `aborted`, and did not start there, had a fatal entry. -/
theorem fatal_of_runStages_aborted {o : String → Bool} {n : String} :
    ∀ {σ σ' : String → Stage} {log : List (Call × Option GoError)},
      runStages o σ log = some σ' → σ n ≠ .aborted → σ' n = .aborted →
        ∃ x ∈ log, x.1.name = n ∧ fatal o x = true
  | _, _, [], h, hn, h' => by cases h; exact absurd h' hn
  | σ, _, (c, r) :: rest, h, hn, h' => by
    simp only [runStages, Option.bind_eq_some] at h
    obtain ⟨s, hs, h⟩ := h
    by_cases hc : c.name = n ∧ s = .aborted
    · exact ⟨(c, r), List.mem_cons_self _ _, hc.1, (Stage.next_eq_aborted hs).mp hc.2⟩
    have hn₁ : Function.update σ c.name s n ≠ .aborted := by
      by_cases hcn : c.name = n
      · subst hcn
        rw [Function.update_same]
        exact fun h => hc ⟨rfl, h⟩
      · rwa [Function.update_noteq (Ne.symm hcn)]
    obtain ⟨x, hx, hxn, hf⟩ := fatal_of_runStages_aborted h hn₁ h'
    exact ⟨x, List.mem_cons_of_mem _ hx, hxn, hf⟩

theorem optionalIn_iff {R : List (ServiceProvider W)} (hR : (R.map (·.name)).Nodup)
    {q : ServiceProvider W} (hq : q ∈ R) :
    optionalIn R q.name = true ↔ q.isOptional = some true := by
  simp only [optionalIn, List.any_eq_true, decide_eq_true_eq]
  constructor
  · rintro ⟨q', hq', hn, ho⟩
    rwa [← List.inj_on_of_nodup_map hR hq' hq hn]
  · exact fun ho => ⟨q, hq, rfl, ho⟩

/-- A run that stopped at a fatal failure ends its log with it. -/
theorem StopsAt.failsLast {o : String → Bool} {cs : List (Call × Callback W)} {e e' : Env W}
    {prov : ServiceProvider W} {c : Call} {err : GoError} (h : StopsAt cs e prov c e' err)
    (hf : c.isBoot = false ∨ o c.name = false) : FailsLast o e'.log prov.name err := by
  obtain ⟨hc, pre, f, post, inner, -, -, hrun, rfl⟩ := h
  refine ⟨c, inner, Env.getLast_log_of_invoke hrun, ?_, hc, rfl⟩
  rcases hf with hf | hf <;> simp [fatal, hf]

section Abort

variable {o : String → Bool} {log : List (Call × Option GoError)}

theorem abortedAt_cons {prov : ServiceProvider W} {rest : List (ServiceProvider W)}
    {σ : String → Stage} {err : GoError} (hp : σ prov.name ≠ .aborted)
    (h : AbortedAt o rest log σ err) : AbortedAt o (prov :: rest) log σ err := by
  obtain ⟨q, hq, hab, huniq, herr⟩ := h
  refine ⟨q, List.mem_cons_of_mem _ hq, hab, fun q' hq' hab' => ?_, herr⟩
  rcases List.mem_cons.mp hq' with rfl | hq'
  · exact absurd hab' hp
  · exact huniq q' hq' hab'

theorem abortedAt_update {prov : ServiceProvider W} {rest : List (ServiceProvider W)}
    {σ : String → Stage} {err : GoError} (hrest : ∀ q ∈ rest, σ q.name ≠ .aborted)
    (herr : FailsLast o log prov.name err) :
    AbortedAt o (prov :: rest) log (Function.update σ prov.name .aborted) err := by
  refine ⟨prov, List.mem_cons_self _ _, Function.update_same _ _ _, fun q hq hab => ?_, herr⟩
  by_contra hqn
  rw [Function.update_noteq hqn] at hab
  rcases List.mem_cons.mp hq with rfl | hq
  · exact hqn rfl
  · exact hrest q hq hab

end Abort

theorem not_mem_map_cons {prov : ServiceProvider W} {rest : List (ServiceProvider W)} {n : String}
    (hn : n ∉ (prov :: rest).map (·.name)) : n ≠ prov.name ∧ n ∉ rest.map (·.name) := by
  rwa [List.map_cons, List.mem_cons, not_or] at hn

/-! ## The phases, stage by stage -/

section Phases

variable {o : String → Bool} {σ₀ : String → Stage}

theorem configureStep_stages {σ : String → Stage} {p : Provider} {prov : ServiceProvider W}
    {e : Env W} (h : runStages o σ₀ e.log = some σ) (hu : σ prov.name = .unregistered) :
    ∃ s, runStages o σ₀ (configureStep p prov e).1.log = some (Function.update σ prov.name s) ∧
      ((configureStep p prov e).2 = none → s = .unregistered ∨ s = .configured) ∧
      ((configureStep p prov e).2 ≠ none → s = .aborted) := by
  unfold configureStep
  split
  · rename_i configure config _ _
    have hrun := runStages_invoke h (.configure prov.name config) (configure config)
    simp only [Call.name, hu] at hrun
    cases hr : (e.invoke (.configure prov.name config) (configure config)).2 with
    | none => exact ⟨.configured, by rw [hrun, hr]; rfl, fun _ => .inr rfl, fun h => absurd rfl h⟩
    | some _ => exact ⟨.aborted, by rw [hrun, hr]; rfl, fun h => absurd h (by simp), fun _ => rfl⟩
  · exact ⟨.unregistered, by rw [← hu, Function.update_eq_self]; exact h, fun _ => .inl rfl,
      fun h => absurd rfl h⟩

/-- The head of phase one moves its provider alone: to `registered`, and phase one goes on with
the rest, or to `aborted` at the callback whose error phase one returns. -/
theorem phaseOne_head (p : Provider) (prov : ServiceProvider W) (rest : List (ServiceProvider W))
    {e : Env W} {σ : String → Stage} (h : runStages o σ₀ e.log = some σ)
    (hu : σ prov.name = .unregistered) :
    ∃ e₁, (runStages o σ₀ e₁.log = some (Function.update σ prov.name .registered) ∧
        p.phaseOne (prov :: rest) e = p.phaseOne rest e₁) ∨
      (runStages o σ₀ e₁.log = some (Function.update σ prov.name .aborted) ∧
        ∃ err, p.phaseOne (prov :: rest) e = (e₁, some err) ∧
          FailsLast o e₁.log prov.name err) := by
  obtain ⟨s, hs, hok, herr⟩ := configureStep_stages (p := p) h hu
  rcases h₁ : configureStep p prov e with ⟨e₁, _ | cerr⟩ <;> rw [h₁] at hs hok herr
  · have hinv := runStages_invoke hs (.register prov.name) prov.register
    simp only [Call.name, Function.update_same] at hinv
    have hmove (r : Stage) (hr : ∀ s', s' = .unregistered ∨ s' = .configured →
        Stage.next (o prov.name) s' (.register prov.name) (e₁.invoke (.register prov.name)
          prov.register).2 = some r) :
        runStages o σ₀ (e₁.invoke (.register prov.name) prov.register).1.log =
          some (Function.update σ prov.name r) := by
      rw [hinv, hr s (hok rfl), Option.map_some', Function.update_idem]
    rcases h₂ : e₁.invoke (.register prov.name) prov.register with ⟨e₂, _ | rerr⟩ <;>
      rw [h₂] at hmove
    · refine ⟨e₂, .inl ⟨hmove .registered ?_, by simp only [Provider.phaseOne_cons, h₁, h₂]⟩⟩
      rintro _ (rfl | rfl) <;> rfl
    · refine ⟨e₂, .inr ⟨hmove .aborted ?_, registerError prov.name rerr,
        by simp only [Provider.phaseOne_cons, h₁, h₂],
        (stopsAt_invoke h₂ rfl rfl [] : StopsAt _ e₁ prov _ e₂ _).failsLast (.inl rfl)⟩⟩
      rintro _ (rfl | rfl) <;> rfl
  · obtain ⟨c, hb, hc⟩ := configureStep_error h₁
    exact ⟨e₁, .inr ⟨by rw [hs, herr (by simp)], configureError prov.name cerr,
      by simp only [Provider.phaseOne_cons, h₁], hc.failsLast (.inl hb)⟩⟩

/-- **Phase one, stage by stage.** From stages where every provider of the list is
`unregistered`, phase one is a run of the machine that moves the providers of the list alone: all
to `registered` when it finishes, exactly one to `aborted` when it fails. -/
theorem phaseOne_stages (p : Provider) :
    ∀ (l : List (ServiceProvider W)) (e : Env W) (σ : String → Stage),
      (l.map (·.name)).Nodup → runStages o σ₀ e.log = some σ →
      (∀ q ∈ l, σ q.name = .unregistered) →
      ∃ σ', runStages o σ₀ (p.phaseOne l e).1.log = some σ' ∧
        (∀ n, n ∉ l.map (·.name) → σ' n = σ n) ∧
        ((p.phaseOne l e).2 = none → ∀ q ∈ l, σ' q.name = .registered) ∧
        (∀ err, (p.phaseOne l e).2 = some err → AbortedAt o l (p.phaseOne l e).1.log σ' err)
  | [], e, σ, _, h, _ => ⟨σ, h, fun _ _ => rfl, fun _ _ hq => absurd hq (List.not_mem_nil _),
      fun _ h => by simp [Provider.phaseOne] at h⟩
  | prov :: rest, e, σ, hnd, h, hu => by
    rw [List.map_cons, List.nodup_cons] at hnd
    obtain ⟨hnot, hnd⟩ := hnd
    have hne : ∀ q ∈ rest, q.name ≠ prov.name := fun q hq he =>
      hnot (he ▸ List.mem_map_of_mem _ hq)
    obtain ⟨e₁, ⟨h₁, hcont⟩ | ⟨h₁, err, hstop, herr⟩⟩ :=
      phaseOne_head p prov rest h (hu prov (List.mem_cons_self _ _))
    · obtain ⟨σ', hrun, hfr, hok, hab⟩ := phaseOne_stages p rest e₁ _ hnd h₁ fun q hq => by
        rw [Function.update_noteq (hne q hq)]
        exact hu q (List.mem_cons_of_mem _ hq)
      have hprov : σ' prov.name = .registered := by rw [hfr _ hnot, Function.update_same]
      rw [hcont]
      refine ⟨σ', hrun, fun n hn => ?_, fun hnone q hq => ?_,
        fun err herr => abortedAt_cons (by rw [hprov]; decide) (hab err herr)⟩
      · obtain ⟨hn₁, hn₂⟩ := not_mem_map_cons hn
        rw [hfr n hn₂, Function.update_noteq hn₁]
      · rcases List.mem_cons.mp hq with rfl | hq
        · exact hprov
        · exact hok hnone q hq
    · rw [hstop]
      refine ⟨_, h₁, fun n hn => Function.update_noteq (not_mem_map_cons hn).1 _ _,
        fun h => absurd h (by simp), fun err' h' => ?_⟩
      obtain rfl := Option.some.inj h'
      exact abortedAt_update (fun q hq => by rw [hu q (List.mem_cons_of_mem _ hq)]; decide) herr

/-- The head of phase two moves its provider alone: to `booted`, or to `bootFailed` when it is
optional, and phase two goes on with the rest; or to `aborted`, whose error phase two returns. -/
theorem phaseTwo_head (prov : ServiceProvider W) (rest : List (ServiceProvider W)) {e : Env W}
    {σ : String → Stage} (h : runStages o σ₀ e.log = some σ) (hr : σ prov.name = .registered)
    (ho : o prov.name = true ↔ prov.isOptional = some true) :
    ∃ e₁, (∃ t, (t = .booted ∨ t = .bootFailed ∧ prov.isOptional = some true) ∧
        runStages o σ₀ e₁.log = some (Function.update σ prov.name t) ∧
        phaseTwo (prov :: rest) e = phaseTwo rest e₁) ∨
      (runStages o σ₀ e₁.log = some (Function.update σ prov.name .aborted) ∧
        ∃ err, phaseTwo (prov :: rest) e = (e₁, some err) ∧ FailsLast o e₁.log prov.name err) := by
  have hinv := runStages_invoke h (.boot prov.name) prov.boot
  simp only [Call.name, hr] at hinv
  rcases h₁ : e.invoke (.boot prov.name) prov.boot with ⟨e₁, _ | berr⟩ <;>
    simp only [h₁, Stage.next, Option.map_some'] at hinv
  · exact ⟨e₁, .inl ⟨_, .inl rfl, hinv, by simp only [phaseTwo, h₁]⟩⟩
  · by_cases hopt : prov.isOptional = some true
    · rw [ho.mpr hopt] at hinv
      exact ⟨e₁, .inl ⟨_, .inr ⟨rfl, hopt⟩, hinv, by simp only [phaseTwo, h₁, hopt]⟩⟩
    · have hno : o prov.name = false := Bool.eq_false_iff.mpr fun h => hopt (ho.mp h)
      rw [hno] at hinv
      refine ⟨e₁, .inr ⟨hinv, bootError prov.name berr, ?_,
        (stopsAt_invoke h₁ rfl rfl [] : StopsAt _ e prov _ e₁ _).failsLast (.inr hno)⟩⟩
      simp only [phaseTwo, h₁]

/-- **Phase two, stage by stage.** From stages where every provider of the list is `registered`,
phase two is a run of the machine that moves the providers of the list alone: each to `booted`,
or `bootFailed` for an optional one, when it finishes, exactly one to `aborted` when it fails. -/
theorem phaseTwo_stages :
    ∀ (l : List (ServiceProvider W)) (e : Env W) (σ : String → Stage),
      (l.map (·.name)).Nodup → (∀ q ∈ l, o q.name = true ↔ q.isOptional = some true) →
      runStages o σ₀ e.log = some σ → (∀ q ∈ l, σ q.name = .registered) →
      ∃ σ', runStages o σ₀ (phaseTwo l e).1.log = some σ' ∧
        (∀ n, n ∉ l.map (·.name) → σ' n = σ n) ∧
        ((phaseTwo l e).2 = none → ∀ q ∈ l,
          σ' q.name = .booted ∨ σ' q.name = .bootFailed ∧ q.isOptional = some true) ∧
        (∀ err, (phaseTwo l e).2 = some err → AbortedAt o l (phaseTwo l e).1.log σ' err)
  | [], e, σ, _, _, h, _ => ⟨σ, h, fun _ _ => rfl, fun _ _ hq => absurd hq (List.not_mem_nil _),
      fun _ h => by simp [phaseTwo] at h⟩
  | prov :: rest, e, σ, hnd, ho, h, hr => by
    rw [List.map_cons, List.nodup_cons] at hnd
    obtain ⟨hnot, hnd⟩ := hnd
    have hne : ∀ q ∈ rest, q.name ≠ prov.name := fun q hq he =>
      hnot (he ▸ List.mem_map_of_mem _ hq)
    obtain ⟨e₁, ⟨t, ht, h₁, hcont⟩ | ⟨h₁, err, hstop, herr⟩⟩ :=
      phaseTwo_head prov rest h (hr prov (List.mem_cons_self _ _)) (ho prov (List.mem_cons_self _ _))
    · obtain ⟨σ', hrun, hfr, hok, hab⟩ := phaseTwo_stages rest e₁ _ hnd
        (fun q hq => ho q (List.mem_cons_of_mem _ hq)) h₁ fun q hq => by
          rw [Function.update_noteq (hne q hq)]
          exact hr q (List.mem_cons_of_mem _ hq)
      have hprov : σ' prov.name = t := by rw [hfr _ hnot, Function.update_same]
      rw [hcont]
      refine ⟨σ', hrun, fun n hn => ?_, fun hnone q hq => ?_, fun err herr =>
        abortedAt_cons (by rw [hprov]; rcases ht with rfl | ⟨rfl, -⟩ <;> decide) (hab err herr)⟩
      · obtain ⟨hn₁, hn₂⟩ := not_mem_map_cons hn
        rw [hfr n hn₂, Function.update_noteq hn₁]
      · rcases List.mem_cons.mp hq with rfl | hq
        · rwa [hprov]
        · exact hok hnone q hq
    · rw [hstop]
      refine ⟨_, h₁, fun n hn => Function.update_noteq (not_mem_map_cons hn).1 _ _,
        fun h => absurd h (by simp), fun err' h' => ?_⟩
      obtain rfl := Option.some.inj h'
      exact abortedAt_update (fun q hq => by rw [hr q (List.mem_cons_of_mem _ hq)]; decide) herr

end Phases

/-! ## The whole load -/

namespace Provider

theorem nodup_loadOrder (p : Provider) {R : List (ServiceProvider W)}
    (hR : (R.map (·.name)).Nodup) : ((p.loadOrder R).map (·.name)).Nodup :=
  ((List.mergeSort_perm _ _).map _).nodup_iff.mpr (((List.filter_sublist R).map _).nodup hR)

/-- Stages that leave every name outside the load `unregistered` lift an abort among the
providers of the load to one among the whole registry. -/
theorem abortedAt_registry {p : Provider} {R : List (ServiceProvider W)} {o : String → Bool}
    {log : List (Call × Option GoError)} {σ : String → Stage} {err : GoError}
    (hσ : ∀ n, n ∉ (p.loadOrder R).map (·.name) → σ n = .unregistered)
    (h : AbortedAt o (p.loadOrder R) log σ err) : AbortedAt o R log σ err := by
  obtain ⟨prov, hprov, hab, huniq, herr⟩ := h
  refine ⟨prov, (mem_loadOrder.mp hprov).1, hab, fun q _ habq => ?_, herr⟩
  by_cases hq : q.name ∈ (p.loadOrder R).map (·.name)
  · obtain ⟨q', hq', hn⟩ := List.mem_map.mp hq
    rw [← hn] at habq ⊢
    exact huniq q' hq' habq
  · rw [hσ _ hq] at habq
    exact absurd habq (by decide)

theorem not_mem_loadOrder_of_disabled {p : Provider} {R : List (ServiceProvider W)}
    {prov : ServiceProvider W} (hdis : p.isProviderEnabled prov.name = false) :
    prov.name ∉ (p.loadOrder R).map (·.name) := fun hmem => by
  obtain ⟨q, hq, hn⟩ := List.mem_map.mp hmem
  have := (mem_loadOrder.mp hq).2
  rw [hn, hdis] at this
  exact absurd this (by decide)

/-- The lifecycle of `loadSpec`: its log is a run of the machine, with the stages it ends in. -/
theorem loadSpec_lifecycle (p : Provider) (R : List (ServiceProvider W)) (app : W)
    (hR : (R.map (·.name)).Nodup) :
    ∃ σ, runStages (optionalIn R) (fun _ => .unregistered) (p.loadSpec R app).1.log = some σ ∧
      (∀ prov ∈ R, p.isProviderEnabled prov.name = false → σ prov.name = .unregistered) ∧
      ((p.loadSpec R app).2 = none → ∀ prov ∈ R, p.isProviderEnabled prov.name = true →
        σ prov.name = .booted ∨ σ prov.name = .bootFailed ∧ prov.isOptional = some true) ∧
      (∀ err, (p.loadSpec R app).2 = some err →
        AbortedAt (optionalIn R) R (p.loadSpec R app).1.log σ err) := by
  have hL := p.nodup_loadOrder hR
  simp only [loadSpec]
  obtain ⟨σ₁, h₁, hfr₁, hok₁, hab₁⟩ := phaseOne_stages (o := optionalIn R) p
    (p.loadOrder R) ⟨app, []⟩ (fun _ => .unregistered) hL rfl fun _ _ => rfl
  rcases hp : p.phaseOne (p.loadOrder R) ⟨app, []⟩ with ⟨e, _ | err⟩ <;>
    simp only [hp] at h₁ hok₁ hab₁ ⊢
  · obtain ⟨σ₂, h₂, hfr₂, hok₂, hab₂⟩ := phaseTwo_stages (p.loadOrder R) e σ₁ hL
      (fun q hq => optionalIn_iff hR (mem_loadOrder.mp hq).1) h₁ (hok₁ trivial)
    have hσ₂ : ∀ n, n ∉ (p.loadOrder R).map (·.name) → σ₂ n = .unregistered :=
      fun n hn => (hfr₂ n hn).trans (hfr₁ n hn)
    exact ⟨σ₂, h₂, fun prov _ hdis => hσ₂ _ (not_mem_loadOrder_of_disabled hdis),
      fun hnone prov hprov hen => hok₂ hnone prov (mem_loadOrder.mpr ⟨hprov, hen⟩),
      fun err herr => abortedAt_registry hσ₂ (hab₂ err herr)⟩
  · refine ⟨σ₁, h₁, fun prov _ hdis => hfr₁ _ (not_mem_loadOrder_of_disabled hdis),
      fun h => absurd h (by simp), fun err' h' => abortedAt_registry hfr₁ ?_⟩
    obtain rfl := Option.some.inj h'
    exact hab₁ err rfl

end Provider

example : (runStages (optionalIn bootFailureProviders) (fun _ => .unregistered)
    (endToEndLoader.loadProviders bootFailureProviders ()).1.log).map
      (fun σ => [σ "A", σ "B", σ "C"]) =
      some [.booted, .aborted, .registered] := by decide

/-- **No callback twice, none out of order.** From every registry that `RegisterGlobalProvider`
can reach, a load makes at most one `Configure`, one `Register` and one `Boot` callback to each
provider, in that order. -/
theorem loadProviders_callbacks_in_order (calls : List (ServiceProvider W)) (p : Provider)
    (app : W) (n : String) :
    (((p.loadProviders (registryAfterAll [] calls) app).1.calls.filter (·.name == n)).map
      Call.kind).Sorted (· < ·) := by
  obtain ⟨σ, hrun, -⟩ :=
    p.loadSpec_lifecycle _ app (nodup_registryAfterAll [] calls List.nodup_nil)
  rw [Provider.loadProviders_eq_loadSpec]
  have hchain : List.Chain' (· < ·)
      (0 :: (((p.loadSpec _ app).1.calls.filter (·.name == n)).map Call.kind)) :=
    runStages_chain hrun n
  exact (List.chain'_iff_pairwise.mp hchain).of_cons

example : ((endToEndLoader.loadProviders (registryAfterAll [] endToEndProviders) ()).1.calls.filter
    (·.name == "B")).map Call.kind = [1, 2, 3] := by decide

/-- **A load fails exactly when a callback fails fatally.** From every registry that
`RegisterGlobalProvider` can reach, `LoadProviders` returns an error exactly when one of its
callbacks failed and was not the `Boot` of an optional provider: such failures are passed over,
and no other failure is. -/
theorem loadProviders_fails_iff (calls : List (ServiceProvider W)) (p : Provider) (app : W) :
    (p.loadProviders (registryAfterAll [] calls) app).2.isSome ↔
      ∃ x ∈ (p.loadProviders (registryAfterAll [] calls) app).1.log,
        fatal (optionalIn (registryAfterAll [] calls)) x = true := by
  obtain ⟨σ, hrun, -, hok, hab⟩ :=
    p.loadSpec_lifecycle _ app (nodup_registryAfterAll [] calls List.nodup_nil)
  rw [Provider.loadProviders_eq_loadSpec]
  constructor
  · intro h
    obtain ⟨err, herr⟩ := Option.isSome_iff_exists.mp h
    obtain ⟨prov, -, hprov, -⟩ := hab err herr
    obtain ⟨x, hx, -, hf⟩ := fatal_of_runStages_aborted hrun (by decide) hprov
    exact ⟨x, hx, hf⟩
  · rintro ⟨x, hx, hf⟩
    have hσ := runStages_aborted_of_fatal hrun x hx hf
    obtain ⟨pre, post, hcalls, hb₁, hb₂, -, -⟩ := p.loadSpec_calls (registryAfterAll [] calls) app
    have hmem : x.1 ∈ (p.loadSpec _ app).1.calls := List.mem_map_of_mem Prod.fst hx
    rw [hcalls] at hmem
    obtain ⟨prov, hprov, hname⟩ :=
      (List.mem_append.mp hmem).elim (fun h => (hb₁ _ h).2) fun h => (hb₂ _ h).2
    obtain ⟨hR, hen⟩ := Provider.mem_loadOrder.mp hprov
    rw [← hname] at hσ
    by_contra hnone
    rcases hok (by simpa using hnone) prov hR hen with h | ⟨h, -⟩ <;> rw [hσ] at h <;> cases h

/-- An optional provider whose `Boot` fails: the load passes over it and returns `nil`. -/
example : (endToEndLoader.loadProviders (registryAfterAll []
      [⟨"A", fun w => (w, none), fun w => (w, some (.new "boom")), none, none, some true⟩]) ()).2 =
    none := by decide

end Adele
