import Adele.Provider.Load

/-!
# What a load does to each provider

The callbacks of a load (§4.4 and §8 of the spec), read off the phases of `loadSpec` and carried
to `LoadProviders` by `loadProviders_eq_loadSpec`.

* `Call.isBoot` tells a callback of the boot phase from one of the register phase, and
  `Call.registered` names the provider of a `Register` callback.
* `phaseOne_calls` and `phaseTwo_calls` say once what each phase appends to the log; the
  results below are read off them.
* `Provider.plan` is the list of callbacks the spec plans for a load, each with the function the
  loader runs for it, and `Env.runPlan` makes such a list of callbacks one after another.
  `StopsAt` says that a run stopped at one callback of a plan, after making the ones before it.

Results:
* `loadProviders_calls_enabled` — every callback goes to an enabled provider of the registry: a
  disabled provider is never configured, registered or booted.
* `loadProviders_register_before_boot` — the log is the register phase and then the boot phase,
  and the boot phase starts only after every enabled provider was registered, in order.
* `loadProviders_ok_calls` — a load that returns `nil` registered and then booted every enabled
  provider once, in priority order.
* `loadProviders_stops_at_failure` — a failed load made a prefix of its plan from the world it was
  given and then the failing callback, on the world that prefix left: the load leaves the world
  that callback returned, its log ends with it, and the error wraps the callback's own; a boot
  error comes from a provider that is not optional.
* `loadProviders_ok_runPlan` — a load that returns `nil` made its whole plan, each callback on the
  world the one before it left.
* `loadProviders_congr` — a load reads the loader only at the names of the registry.
* `loadProviders_setProviderEnabled_false` — disabling a provider is never having registered it.
* `loadProviders_perm` — with distinct priorities, the registration order does not matter.
-/

namespace Adele

variable {W : Type}

/-- Whether a callback is a `Boot`. -/
def Call.isBoot : Call → Bool
  | .boot _ => true
  | _ => false

/-- The provider a `Register` callback went to. -/
def Call.registered : Call → Option String
  | .register name => some name
  | _ => none

@[simp] theorem Env.calls_mk (app : W) (log : List (Call × Option GoError)) :
    (⟨app, log⟩ : Env W).calls = log.map Prod.fst := rfl

@[simp] theorem Env.invoke_calls (e : Env W) (c : Call) (f : Callback W) :
    (e.invoke c f).1.calls = e.calls ++ [c] := by
  simp [Env.invoke, Env.calls]

theorem Env.calls_of_invoke {e e' : Env W} {c : Call} {f : Callback W} {r : Option GoError}
    (h : e.invoke c f = (e', r)) : e'.calls = e.calls ++ [c] := by
  rw [← Env.invoke_calls e c f, h]

/-! ## One phase at a time -/

theorem configureStep_calls (p : Provider) (prov : ServiceProvider W) (e : Env W) :
    ∃ cs, (configureStep p prov e).1.calls = e.calls ++ cs ∧
      ∀ c ∈ cs, c.isBoot = false ∧ c.registered = none ∧ c.name = prov.name := by
  unfold configureStep
  split
  · exact ⟨[_], Env.invoke_calls _ _ _, by simp [Call.isBoot, Call.registered, Call.name]⟩
  · exact ⟨[], by simp, by simp⟩

namespace Provider

/-- **Phase one** appends register-phase callbacks to providers of its list; when it finishes,
it has registered every provider of the list, in order. -/
theorem phaseOne_calls (p : Provider) : ∀ (l : List (ServiceProvider W)) (e : Env W),
    ∃ pre, (p.phaseOne l e).1.calls = e.calls ++ pre ∧
      (∀ c ∈ pre, c.isBoot = false ∧ ∃ prov ∈ l, prov.name = c.name) ∧
      ((p.phaseOne l e).2 = none → pre.filterMap Call.registered = l.map (·.name))
  | [], e => ⟨[], by simp [phaseOne]⟩
  | prov :: rest, e => by
    obtain ⟨cs, hcs, hc⟩ := configureStep_calls p prov e
    have hcs' : ∀ c ∈ cs, c.isBoot = false ∧ ∃ q ∈ prov :: rest, q.name = c.name :=
      fun c h => ⟨(hc c h).1, prov, List.mem_cons_self _ _, (hc c h).2.2.symm⟩
    have hreg : cs.filterMap Call.registered = [] :=
      List.filterMap_eq_nil_iff.mpr fun c h => (hc c h).2.1
    rcases h₁ : configureStep p prov e with ⟨e₁, _ | err⟩ <;> simp only [h₁] at hcs
    · rcases h₂ : e₁.invoke (.register prov.name) prov.register with ⟨e₂, _ | err⟩ <;>
        have he₂ := Env.calls_of_invoke h₂
      · obtain ⟨pre, hpre, hb, hr⟩ := phaseOne_calls p rest e₂
        simp only [phaseOne_cons, h₁, h₂]
        refine ⟨cs ++ .register prov.name :: pre, by simp [hpre, he₂, hcs], fun c h => ?_,
          fun h => by simp [hreg, hr h, Call.registered]⟩
        rcases List.mem_append.mp h with h | h
        · exact hcs' c h
        · rcases List.mem_cons.mp h with rfl | h
          · exact ⟨rfl, prov, List.mem_cons_self _ _, rfl⟩
          · obtain ⟨hb, q, hq, hn⟩ := hb c h
            exact ⟨hb, q, List.mem_cons_of_mem _ hq, hn⟩
      · simp only [phaseOne_cons, h₁, h₂]
        refine ⟨cs ++ [.register prov.name], by simp [he₂, hcs], fun c h => ?_, by simp⟩
        rcases List.mem_append.mp h with h | h
        · exact hcs' c h
        · obtain rfl := List.mem_singleton.mp h
          exact ⟨rfl, prov, List.mem_cons_self _ _, rfl⟩
    · simp only [phaseOne_cons, h₁]
      exact ⟨cs, hcs, hcs', by simp⟩

end Provider

/-- **Phase two** appends boot callbacks to providers of its list; when it finishes, it has
booted every provider of the list, in order. -/
theorem phaseTwo_calls : ∀ (l : List (ServiceProvider W)) (e : Env W),
    ∃ post, (phaseTwo l e).1.calls = e.calls ++ post ∧
      (∀ c ∈ post, c.isBoot = true ∧ ∃ prov ∈ l, prov.name = c.name) ∧
      ((phaseTwo l e).2 = none → post = l.map fun prov => .boot prov.name)
  | [], e => ⟨[], by simp [phaseTwo]⟩
  | prov :: rest, e => by
    rcases h₁ : e.invoke (.boot prov.name) prov.boot with ⟨e₁, r⟩
    have he₁ := Env.calls_of_invoke h₁
    obtain ⟨post, hpost, hb, hok⟩ := phaseTwo_calls rest e₁
    have hall : ∀ c ∈ Call.boot prov.name :: post,
        c.isBoot = true ∧ ∃ q ∈ prov :: rest, q.name = c.name := by
      intro c h
      rcases List.mem_cons.mp h with rfl | h
      · exact ⟨rfl, prov, List.mem_cons_self _ _, rfl⟩
      · obtain ⟨hb, q, hq, hn⟩ := hb c h
        exact ⟨hb, q, List.mem_cons_of_mem _ hq, hn⟩
    have hrun : (phaseTwo rest e₁).1.calls = e.calls ++ Call.boot prov.name :: post := by
      simp [hpost, he₁]
    rcases r with _ | err
    · simp only [phaseTwo, h₁]
      exact ⟨_, hrun, hall, fun h => by simp [hok h]⟩
    · rcases hopt : prov.isOptional with _ | _ | _ <;> simp only [phaseTwo, h₁, hopt]
      · exact ⟨[.boot prov.name], by simp [he₁], by simpa using hall _ (List.mem_cons_self _ _),
          by simp⟩
      · exact ⟨[.boot prov.name], by simp [he₁], by simpa using hall _ (List.mem_cons_self _ _),
          by simp⟩
      · exact ⟨_, hrun, hall, fun h => by simp [hok h]⟩

/-! ## The whole load -/

namespace Provider

theorem mem_loadOrder {p : Provider} {R : List (ServiceProvider W)} {prov : ServiceProvider W} :
    prov ∈ p.loadOrder R ↔ prov ∈ R ∧ p.isProviderEnabled prov.name = true := by
  simp [loadOrder, List.mem_mergeSort]

/-- The log of a load: register-phase callbacks, then boot callbacks, all to providers of the
load; the boot phase runs only after phase one registered every provider, and a load that
returns `nil` booted every provider. -/
theorem loadSpec_calls (p : Provider) (R : List (ServiceProvider W)) (app : W) :
    ∃ pre post, (p.loadSpec R app).1.calls = pre ++ post ∧
      (∀ c ∈ pre, c.isBoot = false ∧ ∃ prov ∈ p.loadOrder R, prov.name = c.name) ∧
      (∀ c ∈ post, c.isBoot = true ∧ ∃ prov ∈ p.loadOrder R, prov.name = c.name) ∧
      (post ≠ [] ∨ (p.loadSpec R app).2 = none →
        pre.filterMap Call.registered = (p.loadOrder R).map (·.name)) ∧
      ((p.loadSpec R app).2 = none → post = (p.loadOrder R).map fun prov => .boot prov.name) := by
  obtain ⟨pre, hpre, hb₁, hr⟩ := p.phaseOne_calls (p.loadOrder R) ⟨app, []⟩
  simp only [loadSpec]
  rcases h : p.phaseOne (p.loadOrder R) ⟨app, []⟩ with ⟨e, _ | err⟩ <;> rw [h] at hpre hr <;>
    simp only at hpre hr ⊢
  · obtain ⟨post, hpost, hb₂, hok⟩ := phaseTwo_calls (p.loadOrder R) e
    exact ⟨pre, post, by simp [hpost, hpre], hb₁, hb₂, fun _ => hr trivial, hok⟩
  · exact ⟨pre, [], by simp [hpre], hb₁, by simp, by simp, by simp⟩

end Provider

/-- **No callback reaches a disabled provider.** Every `Configure`, `Register` and `Boot` a load
makes goes to an enabled provider of the registry. -/
theorem loadProviders_calls_enabled (p : Provider) (R : List (ServiceProvider W)) (app : W) :
    (p.loadProviders R app).1.calls.map Call.name ⊆
      (R.filter fun prov => p.isProviderEnabled prov.name).map (·.name) := by
  obtain ⟨pre, post, hcalls, hb₁, hb₂, -, -⟩ := p.loadSpec_calls R app
  rw [Provider.loadProviders_eq_loadSpec, hcalls]
  intro n hn
  obtain ⟨c, hc, rfl⟩ := List.mem_map.mp hn
  obtain ⟨prov, hprov, hn⟩ := (List.mem_append.mp hc).elim (fun h => (hb₁ c h).2)
    fun h => (hb₂ c h).2
  exact List.mem_map.mpr ⟨prov, List.mem_filter.mpr (Provider.mem_loadOrder.mp hprov), hn⟩

/-- **Registration completes before boot begins.** The log of every load is its register phase
and then its boot phase, and when a boot callback was made, every enabled provider had been
registered, in priority order. -/
theorem loadProviders_register_before_boot (p : Provider) (R : List (ServiceProvider W))
    (app : W) :
    ∃ pre post, (p.loadProviders R app).1.calls = pre ++ post ∧
      (∀ c ∈ pre, c.isBoot = false) ∧ (∀ c ∈ post, c.isBoot = true) ∧
      (post ≠ [] → pre.filterMap Call.registered = (p.loadOrder R).map (·.name)) := by
  obtain ⟨pre, post, hcalls, hb₁, hb₂, hr, -⟩ := p.loadSpec_calls R app
  rw [Provider.loadProviders_eq_loadSpec]
  exact ⟨pre, post, hcalls, fun c h => (hb₁ c h).1, fun c h => (hb₂ c h).1, fun h => hr (.inl h)⟩

/-- **A load that returns `nil`** registered every enabled provider and then booted each once,
both in priority order. -/
theorem loadProviders_ok_calls (p : Provider) (R : List (ServiceProvider W)) (app : W)
    (hok : (p.loadProviders R app).2 = none) :
    ∃ pre, (p.loadProviders R app).1.calls = pre ++ (p.loadOrder R).map (fun prov => .boot prov.name) ∧
      (∀ c ∈ pre, c.isBoot = false) ∧
      pre.filterMap Call.registered = (p.loadOrder R).map (·.name) := by
  rw [Provider.loadProviders_eq_loadSpec] at hok ⊢
  obtain ⟨pre, post, hcalls, hb₁, -, hr, hpost⟩ := p.loadSpec_calls R app
  exact ⟨pre, hcalls ▸ hpost hok ▸ rfl, fun c h => (hb₁ c h).1, hr (.inr hok)⟩

/-- The payload `{"key": "value"}`. -/
def keyValue : Config := fun k => if k = "key" then some (.string "value") else none

/-- The providers of the end-to-end scenario of the spec (§8), registered as `C`, `B`, `A`: `A`
of priority 10, `B` of priority 50 with a `Configure`, and `C` with no priority. -/
def endToEndProviders : List (ServiceProvider Unit) :=
  [⟨"C", fun w => (w, none), fun w => (w, none), none, none, none⟩,
    ⟨"B", fun w => (w, none), fun w => (w, none), some fun _ w => (w, none), some 50, none⟩,
    ⟨"A", fun w => (w, none), fun w => (w, none), none, some 10, none⟩]

/-- The loader of the scenario: everything enabled, `{"key": "value"}` for `B`. -/
def endToEndLoader : Provider := ⟨fun _ => none, fun n => if n = "B" then some keyValue else none⟩

/-- The end-to-end scenario returns `nil`: `A`, `B`, `C` are registered, then booted. -/
theorem loadProviders_ok_endToEnd :
    (endToEndLoader.loadProviders endToEndProviders ()).2 = none ∧
      ∃ pre, (endToEndLoader.loadProviders endToEndProviders ()).1.calls =
          pre ++ (endToEndLoader.loadOrder endToEndProviders).map (fun prov => .boot prov.name) ∧
        (∀ c ∈ pre, c.isBoot = false) ∧
        pre.filterMap Call.registered =
          (endToEndLoader.loadOrder endToEndProviders).map (·.name) :=
  ⟨by decide, loadProviders_ok_calls _ _ _ (by decide)⟩

example : (endToEndLoader.loadProviders endToEndProviders ()).1.calls.map Call.name =
    ["A", "B", "B", "C", "A", "B", "C"] := by decide

/-! ## The plan of a load

The spec plans the callbacks of a load in order (§4.4). A load makes them one after another from
the world it was given, each on the world the one before it left: all of them when it returns
`nil`; when it fails, a prefix of them and then the callback that failed. -/

/-- The function the loader runs for the callback `c` to `prov`. -/
def Call.callback (prov : ServiceProvider W) : Call → Option (Callback W)
  | .configure _ config => prov.configure.map fun configure => configure config
  | .register _ => some prov.register
  | .boot _ => some prov.boot

/-- The error `LoadProviders` returns when the callback `c` fails with `err`
(`provider.go:71, 78, 93`). -/
def Call.loadError : Call → GoError → GoError
  | .configure name _ => configureError name
  | .register name => registerError name
  | .boot name => bootError name

@[simp] theorem unwrap_loadError (c : Call) (err : GoError) :
    (c.loadError err).unwrap = some err := by
  cases c <;> rfl

/-- Make the callbacks of `cs` one after another, each on the world the one before it left, and
log each with its error, whatever the error. -/
def Env.runPlan (e : Env W) : List (Call × Callback W) → Env W
  | [] => e
  | (c, f) :: cs => (e.invoke c f).1.runPlan cs

theorem Env.runPlan_append (e : Env W) (cs ds : List (Call × Callback W)) :
    e.runPlan (cs ++ ds) = (e.runPlan cs).runPlan ds := by
  induction cs generalizing e with
  | nil => rfl
  | cons x cs ih => exact ih _

theorem Env.runPlan_of_invoke {e e' : Env W} {c : Call} {f : Callback W} {r : Option GoError}
    (h : e.invoke c f = (e', r)) (cs : List (Call × Callback W)) :
    e.runPlan ((c, f) :: cs) = e'.runPlan cs := by
  rw [Env.runPlan, h]

theorem Env.getLast_log_of_invoke {e e' : Env W} {c : Call} {f : Callback W}
    {r : Option GoError} (h : e.invoke c f = (e', r)) : e'.log.getLast? = some (c, r) := by
  obtain ⟨rfl, rfl⟩ := Prod.mk.inj h
  simp [Env.invoke]

namespace Provider

/-- The `Configure` phase one plans for `prov`: one when the provider implements it and a payload
is set (`provider.go:68-74`), none otherwise. -/
def configurePlan (p : Provider) (prov : ServiceProvider W) : List (Call × Callback W) :=
  match prov.configure, p.getProviderConfig prov.name with
  | some configure, some config => [(.configure prov.name config, configure config)]
  | _, _ => []

/-- The callbacks phase one plans for `l`: for each provider in turn, its `Configure` if one is
planned, then its `Register`. -/
def registerPlan (p : Provider) (l : List (ServiceProvider W)) : List (Call × Callback W) :=
  l.flatMap fun prov => p.configurePlan prov ++ [(.register prov.name, prov.register)]

@[simp] theorem registerPlan_cons (p : Provider) (prov : ServiceProvider W)
    (rest : List (ServiceProvider W)) :
    p.registerPlan (prov :: rest) =
      p.configurePlan prov ++ (.register prov.name, prov.register) :: p.registerPlan rest := by
  simp [registerPlan]

end Provider

/-- The callbacks phase two plans for `l`: the `Boot` of each provider in turn. -/
def bootPlan (l : List (ServiceProvider W)) : List (Call × Callback W) :=
  l.map fun prov => (.boot prov.name, prov.boot)

/-- The callbacks the spec plans for a load over the order `L` (§4.4): phase one's, then phase
two's. -/
def Provider.plan (p : Provider) (L : List (ServiceProvider W)) : List (Call × Callback W) :=
  p.registerPlan L ++ bootPlan L

/-- The run from `e` over the callbacks `cs` stopped at the callback `c` to `prov`, leaving `e'`
and returning `err`: `cs` is `pre`, then `c` with its function `f`, then more; the run made the
callbacks of `pre`, then `c` on the world they left, which returned the error `inner` and left
`e'`; `err` wraps `inner`. Every callback logs one entry, so `pre` is as long as the log of `e'`
before its last entry. -/
def StopsAt (cs : List (Call × Callback W)) (e : Env W) (prov : ServiceProvider W) (c : Call)
    (e' : Env W) (err : GoError) : Prop :=
  c.name = prov.name ∧ ∃ pre f post inner, cs = pre ++ (c, f) :: post ∧
    c.callback prov = some f ∧ (e.runPlan pre).invoke c f = (e', some inner) ∧
    err = c.loadError inner

section StopsAt

variable {cs : List (Call × Callback W)} {e e' : Env W} {prov : ServiceProvider W} {c : Call}
  {err : GoError}

theorem stopsAt_invoke {f : Callback W} {inner : GoError} (h : e.invoke c f = (e', some inner))
    (hc : c.name = prov.name) (hf : c.callback prov = some f) (cs) :
    StopsAt ((c, f) :: cs) e prov c e' (c.loadError inner) :=
  ⟨hc, [], f, cs, inner, rfl, hf, h, rfl⟩

/-- A run that stopped in `cs` stopped in `cs` followed by more. -/
theorem StopsAt.append_right (h : StopsAt cs e prov c e' err) (ds : List (Call × Callback W)) :
    StopsAt (cs ++ ds) e prov c e' err := by
  obtain ⟨hc, pre, f, post, inner, rfl, hf, hrun, herr⟩ := h
  exact ⟨hc, pre, f, post ++ ds, inner, by simp, hf, hrun, herr⟩

/-- A run from where `ds` left `e` that stopped in `cs` is a run from `e` that stopped in
`ds ++ cs`. -/
theorem StopsAt.append_left (ds : List (Call × Callback W))
    (h : StopsAt cs (e.runPlan ds) prov c e' err) :
    StopsAt (ds ++ cs) e prov c e' err := by
  obtain ⟨hc, pre, f, post, inner, rfl, hf, hrun, herr⟩ := h
  exact ⟨hc, ds ++ pre, f, post, inner, by simp, hf, by rwa [Env.runPlan_append], herr⟩

theorem StopsAt.cons {e₁ : Env W} {c' : Call} {f' : Callback W} {r : Option GoError}
    (hx : e.invoke c' f' = (e₁, r)) (h : StopsAt cs e₁ prov c e' err) :
    StopsAt ((c', f') :: cs) e prov c e' err :=
  StopsAt.append_left [(c', f')] (by rwa [Env.runPlan_of_invoke hx])

end StopsAt

/-- What `configureStep` does, read off `configurePlan`: nothing when no `Configure` is planned,
the planned one otherwise. -/
theorem configureStep_eq (p : Provider) (prov : ServiceProvider W) (e : Env W) :
    (p.configurePlan prov = [] ∧ configureStep p prov e = (e, none)) ∨
      ∃ config f, p.configurePlan prov = [(.configure prov.name config, f)] ∧
        (Call.configure prov.name config).callback prov = some f ∧
        configureStep p prov e = e.invoke (.configure prov.name config) f := by
  unfold configureStep Provider.configurePlan
  rcases hc : prov.configure with _ | configure <;>
    rcases p.getProviderConfig prov.name with _ | config
  case some.some => exact .inr ⟨config, configure config, rfl, by simp [Call.callback, hc], rfl⟩
  all_goals exact .inl ⟨rfl, rfl⟩

theorem configureStep_ok {p : Provider} {prov : ServiceProvider W} {e e₁ : Env W}
    (h : configureStep p prov e = (e₁, none)) : e₁ = e.runPlan (p.configurePlan prov) := by
  rcases configureStep_eq p prov e with ⟨hplan, hstep⟩ | ⟨config, f, hplan, -, hstep⟩ <;>
    rw [hplan] <;> rw [hstep] at h
  · exact (Prod.mk.inj h).1.symm
  · rw [Env.runPlan_of_invoke h]
    rfl

theorem configureStep_error {p : Provider} {prov : ServiceProvider W} {e e₁ : Env W}
    {err : GoError} (h : configureStep p prov e = (e₁, some err)) :
    ∃ c, c.isBoot = false ∧
      StopsAt (p.configurePlan prov) e prov c e₁ (configureError prov.name err) := by
  rcases configureStep_eq p prov e with ⟨-, hstep⟩ | ⟨config, f, hplan, hf, hstep⟩ <;>
    rw [hstep] at h
  · cases h
  · rw [hplan]
    exact ⟨.configure prov.name config, rfl, stopsAt_invoke h rfl hf []⟩

namespace Provider

/-- Phase one that finishes made every callback it plans. -/
theorem phaseOne_ok (p : Provider) : ∀ {l : List (ServiceProvider W)} {e : Env W},
    (p.phaseOne l e).2 = none → (p.phaseOne l e).1 = e.runPlan (p.registerPlan l)
  | [], _, _ => rfl
  | prov :: rest, e, h => by
    rw [phaseOne_cons] at h ⊢
    rcases h₁ : configureStep p prov e with ⟨e₁, _ | cerr⟩ <;> simp only [h₁] at h ⊢
    · rcases h₂ : e₁.invoke (.register prov.name) prov.register with ⟨e₂, _ | rerr⟩ <;>
        simp only [h₂] at h ⊢
      · rw [phaseOne_ok p h, registerPlan_cons, Env.runPlan_append, ← configureStep_ok h₁,
          Env.runPlan_of_invoke h₂]
      · cases h
    · cases h

/-- Phase one that fails stopped in its plan, at a `Configure` or a `Register`. -/
theorem phaseOne_error (p : Provider) {err : GoError} :
    ∀ {l : List (ServiceProvider W)} {e : Env W}, (p.phaseOne l e).2 = some err →
      ∃ prov ∈ l, ∃ c, c.isBoot = false ∧
        StopsAt (p.registerPlan l) e prov c (p.phaseOne l e).1 err
  | [], e, h => by simp [phaseOne] at h
  | prov :: rest, e, h => by
    rw [phaseOne_cons] at h ⊢
    rw [registerPlan_cons]
    rcases h₁ : configureStep p prov e with ⟨e₁, _ | cerr⟩ <;> simp only [h₁] at h ⊢
    · have he₁ := configureStep_ok h₁
      subst he₁
      rcases h₂ : (e.runPlan (p.configurePlan prov)).invoke (.register prov.name) prov.register
        with ⟨e₂, _ | rerr⟩ <;> simp only [h₂] at h ⊢
      · obtain ⟨q, hq, c, hb, hs⟩ := phaseOne_error p h
        exact ⟨q, List.mem_cons_of_mem _ hq, c, hb, .append_left _ (hs.cons h₂)⟩
      · obtain rfl := Option.some.inj h
        exact ⟨prov, List.mem_cons_self _ _, .register prov.name, rfl,
          .append_left _ (stopsAt_invoke h₂ rfl rfl _)⟩
    · obtain rfl := Option.some.inj h
      obtain ⟨c, hb, hs⟩ := configureStep_error h₁
      exact ⟨prov, List.mem_cons_self _ _, c, hb, hs.append_right _⟩

end Provider

/-- Phase two that finishes made every `Boot` it plans, failed ones of optional providers
included. -/
theorem phaseTwo_ok : ∀ {l : List (ServiceProvider W)} {e : Env W},
    (phaseTwo l e).2 = none → (phaseTwo l e).1 = e.runPlan (bootPlan l)
  | [], _, _ => rfl
  | prov :: rest, e, h => by
    simp only [phaseTwo] at h ⊢
    rcases h₁ : e.invoke (.boot prov.name) prov.boot with ⟨e₁, r⟩
    simp only [h₁] at h ⊢
    rw [bootPlan, List.map_cons, Env.runPlan_of_invoke h₁]
    rcases r with _ | berr
    · exact phaseTwo_ok h
    · rcases hopt : prov.isOptional with _ | _ | _ <;> simp only [hopt] at h ⊢
      · cases h
      · cases h
      · exact phaseTwo_ok h

/-- Phase two that fails stopped in its plan, at the `Boot` of a provider that is not
optional. -/
theorem phaseTwo_error {err : GoError} :
    ∀ {l : List (ServiceProvider W)} {e : Env W}, (phaseTwo l e).2 = some err →
      ∃ prov ∈ l, prov.isOptional ≠ some true ∧
        StopsAt (bootPlan l) e prov (.boot prov.name) (phaseTwo l e).1 err
  | [], e, h => by simp [phaseTwo] at h
  | prov :: rest, e, h => by
    simp only [phaseTwo] at h ⊢
    rcases h₁ : e.invoke (.boot prov.name) prov.boot with ⟨e₁, r⟩
    simp only [h₁] at h ⊢
    have later (h : (phaseTwo rest e₁).2 = some err) : ∃ q ∈ prov :: rest,
        q.isOptional ≠ some true ∧
          StopsAt (bootPlan (prov :: rest)) e q (.boot q.name) (phaseTwo rest e₁).1 err :=
      let ⟨q, hq, hopt, hs⟩ := phaseTwo_error h
      ⟨q, List.mem_cons_of_mem _ hq, hopt, hs.cons h₁⟩
    rcases r with _ | berr
    · exact later h
    have here (hopt : prov.isOptional ≠ some true)
        (h : some (bootError prov.name berr) = some err) : ∃ q ∈ prov :: rest,
          q.isOptional ≠ some true ∧
            StopsAt (bootPlan (prov :: rest)) e q (.boot q.name) e₁ err := by
      obtain rfl := Option.some.inj h
      exact ⟨prov, List.mem_cons_self _ _, hopt, stopsAt_invoke h₁ rfl rfl _⟩
    rcases hopt : prov.isOptional with _ | _ | _ <;> simp only [hopt] at h ⊢
    · exact here (by simp [hopt]) h
    · exact here (by simp [hopt]) h
    · exact later h

/-- A load stops in phase one with its error, or finishes phase one, having made all it plans,
and runs phase two from there. -/
theorem Provider.loadSpec_cases (p : Provider) (R : List (ServiceProvider W)) (app : W) :
    (∃ err, (p.phaseOne (p.loadOrder R) ⟨app, []⟩).2 = some err ∧
        p.loadSpec R app = ((p.phaseOne (p.loadOrder R) ⟨app, []⟩).1, some err)) ∨
      p.loadSpec R app =
        phaseTwo (p.loadOrder R) (Env.runPlan ⟨app, []⟩ (p.registerPlan (p.loadOrder R))) := by
  unfold Provider.loadSpec
  rcases h : p.phaseOne (p.loadOrder R) ⟨app, []⟩ with ⟨e, _ | err⟩
  · have he := p.phaseOne_ok (l := p.loadOrder R) (e := ⟨app, []⟩) (by rw [h])
    rw [h] at he
    exact .inr (by rw [← he])
  · exact .inl ⟨err, rfl, rfl⟩

/-- The scenario of the spec with a `Boot` of `B` that fails, `B` not optional. -/
def bootFailureProviders : List (ServiceProvider Unit) :=
  [⟨"C", fun w => (w, none), fun w => (w, none), none, none, none⟩,
    ⟨"B", fun w => (w, none), fun w => (w, some (.new "boom")), some fun _ w => (w, none),
      some 50, none⟩,
    ⟨"A", fun w => (w, none), fun w => (w, none), none, some 10, none⟩]

example : (endToEndLoader.loadProviders bootFailureProviders ()).1.calls.map Call.name =
    ["A", "B", "B", "C", "A", "B"] := by decide

namespace Provider

theorem loadOrder_congr {p q : Provider} {R : List (ServiceProvider W)}
    (h : ∀ prov ∈ R, p.isProviderEnabled prov.name = q.isProviderEnabled prov.name ∧
      p.getProviderConfig prov.name = q.getProviderConfig prov.name) :
    p.loadOrder R = q.loadOrder R := by
  unfold loadOrder
  rw [List.filter_congr fun prov hp => (h prov hp).1]
  exact mergeSort_congr_key fun prov hp => by
    simp only [specPriority, (h prov (List.mem_filter.mp hp).1).2]

theorem phaseOne_congr {p q : Provider} :
    ∀ {l : List (ServiceProvider W)} (e : Env W),
      (∀ prov ∈ l, p.getProviderConfig prov.name = q.getProviderConfig prov.name) →
        p.phaseOne l e = q.phaseOne l e
  | [], _, _ => rfl
  | prov :: rest, e, h => by
    have hc : configureStep p prov e = configureStep q prov e := by
      simp only [configureStep, h prov (List.mem_cons_self _ _)]
    simp only [phaseOne_cons, hc]
    rcases configureStep q prov e with ⟨e₁, _ | err⟩
    · rcases e₁.invoke (.register prov.name) prov.register with ⟨e₂, _ | err⟩
      · exact phaseOne_congr e₂ fun q hq => h q (List.mem_cons_of_mem _ hq)
      · rfl
    · rfl

theorem loadSpec_congr {p q : Provider} {R : List (ServiceProvider W)} (app : W)
    (h : ∀ prov ∈ R, p.isProviderEnabled prov.name = q.isProviderEnabled prov.name ∧
      p.getProviderConfig prov.name = q.getProviderConfig prov.name) :
    p.loadSpec R app = q.loadSpec R app := by
  unfold loadSpec
  rw [loadOrder_congr h, phaseOne_congr _ fun prov hp => (h prov (mem_loadOrder.mp hp).1).2]

end Provider

/-- **A load reads the loader only at the names of the registry.** Two loaders that enable the
same registered providers and hold the same configuration for them load alike: the same
callbacks, the same world, the same result. So `SetProviderEnabled` and `SetProviderConfig` for a
name that no registered provider has change no load. -/
theorem loadProviders_congr (p q : Provider) (R : List (ServiceProvider W)) (app : W)
    (h : ∀ prov ∈ R, p.isProviderEnabled prov.name = q.isProviderEnabled prov.name ∧
      p.getProviderConfig prov.name = q.getProviderConfig prov.name) :
    p.loadProviders R app = q.loadProviders R app := by
  rw [Provider.loadProviders_eq_loadSpec, Provider.loadProviders_eq_loadSpec]
  exact Provider.loadSpec_congr app h

/-- The loader of the scenario, with `Z` disabled and configured: no provider is named `Z`. -/
theorem loadProviders_congr_stale :
    (∀ prov ∈ endToEndProviders,
      endToEndLoader.isProviderEnabled prov.name =
          ((endToEndLoader.setProviderEnabled "Z" false).setProviderConfig "Z"
            (some keyValue)).isProviderEnabled prov.name ∧
        endToEndLoader.getProviderConfig prov.name =
          ((endToEndLoader.setProviderEnabled "Z" false).setProviderConfig "Z"
            (some keyValue)).getProviderConfig prov.name) ∧
      endToEndLoader.loadProviders endToEndProviders () =
        ((endToEndLoader.setProviderEnabled "Z" false).setProviderConfig "Z"
          (some keyValue)).loadProviders endToEndProviders () :=
  ⟨by simp [endToEndProviders], loadProviders_congr _ _ _ _ (by simp [endToEndProviders])⟩

/-- **Disabling a provider is never having registered it.** After `SetProviderEnabled(name,
false)`, a load makes exactly the callbacks, and returns exactly what, a load of the registry
without the providers named `name` makes and returns. -/
theorem loadProviders_setProviderEnabled_false (p : Provider) (R : List (ServiceProvider W))
    (app : W) (name : String) :
    (p.setProviderEnabled name false).loadProviders R app =
      p.loadProviders (R.filter fun prov => prov.name ≠ name) app := by
  rw [Provider.loadProviders_eq_loadSpec, Provider.loadProviders_eq_loadSpec]
  have hkey : (p.setProviderEnabled name false).specPriority = p.specPriority (W := W) := by
    funext prov
    simp only [Provider.specPriority, Provider.getProviderConfig_setProviderEnabled]
  have horder : (p.setProviderEnabled name false).loadOrder R =
      p.loadOrder (R.filter fun prov => prov.name ≠ name) := by
    unfold Provider.loadOrder
    rw [hkey, List.filter_filter]
    congr 2
    funext prov
    by_cases hn : prov.name = name <;> simp [hn]
  unfold Provider.loadSpec
  rw [horder, Provider.phaseOne_congr (q := p) _ fun prov _ => by simp]

/-! ## What the registration order decides -/

namespace Provider

/-- A list whose keys are distinct has at most one element of each key. -/
theorem length_filter_key_le {α : Type} {f : α → Int} {l : List α} (hd : (l.map f).Nodup)
    (k : Int) : (l.filter fun a => f a = k).length ≤ 1 := by
  have hsub : ((l.filter fun a => f a = k).map f).Nodup :=
    hd.sublist ((List.filter_sublist l).map f)
  have hk : ∀ x ∈ (l.filter fun a => f a = k).map f, x = k := by
    intro x hx
    obtain ⟨a, ha, rfl⟩ := List.mem_map.mp hx
    simpa using (List.mem_filter.mp ha).2
  rw [List.eq_replicate_iff.mpr ⟨rfl, hk⟩, List.nodup_replicate] at hsub
  simpa using hsub

/-- With distinct priorities among the enabled providers, the order of a load does not depend on
the order of the registry. -/
theorem loadOrder_perm {p : Provider} {R R' : List (ServiceProvider W)} (hp : R.Perm R')
    (hd : ((R.filter fun prov => p.isProviderEnabled prov.name).map p.specPriority).Nodup) :
    p.loadOrder R = p.loadOrder R' := by
  have hL := hp.filter fun prov => p.isProviderEnabled prov.name
  unfold loadOrder
  refine eq_of_sorted_of_filter_eq ((List.mergeSort_perm _ _).trans
    (hL.trans (List.mergeSort_perm _ _).symm)) (sorted_mergeSort_by _) (sorted_mergeSort_by _)
    fun k => ?_
  rw [filter_mergeSort, filter_mergeSort]
  have hk := hL.filter fun prov => p.specPriority prov = k
  have hle := length_filter_key_le hd k
  rcases hf : (R.filter fun prov => p.isProviderEnabled prov.name).filter
      (fun prov => p.specPriority prov = k) with _ | ⟨a, _ | ⟨b, t⟩⟩
  · rw [hf] at hk ⊢
    exact hk.nil_eq
  · rw [hf] at hk ⊢
    exact (List.perm_singleton.mp hk.symm).symm
  · rw [hf] at hle
    simp at hle

end Provider

/-- **With distinct priorities, the registration order does not matter.** When the enabled
providers of a registry resolve to pairwise distinct priorities, a load of any reordering of the
registry makes the same callbacks, leaves the same world and returns the same result: only ties
are broken by registration order. -/
theorem loadProviders_perm (p : Provider) {R R' : List (ServiceProvider W)} (app : W)
    (hp : R.Perm R')
    (hd : ((R.filter fun prov => p.isProviderEnabled prov.name).map p.resolvedPriority).Nodup) :
    p.loadProviders R app = p.loadProviders R' app := by
  have hspec : p.resolvedPriority (W := W) = p.specPriority := funext p.resolvedPriority_eq
  rw [hspec] at hd
  rw [Provider.loadProviders_eq_loadSpec, Provider.loadProviders_eq_loadSpec, Provider.loadSpec,
    Provider.loadSpec, Provider.loadOrder_perm hp hd]

/-- The providers of the scenario registered as `A`, `B`, `C` and as `C`, `B`, `A` load alike. -/
theorem loadProviders_perm_reverse :
    endToEndProviders.Perm endToEndProviders.reverse ∧
      ((endToEndProviders.filter fun prov => endToEndLoader.isProviderEnabled prov.name).map
        endToEndLoader.resolvedPriority).Nodup ∧
      endToEndLoader.loadProviders endToEndProviders () =
        endToEndLoader.loadProviders endToEndProviders.reverse () :=
  have hp := (List.reverse_perm endToEndProviders).symm
  have hd : ((endToEndProviders.filter fun prov => endToEndLoader.isProviderEnabled prov.name).map
      endToEndLoader.resolvedPriority).Nodup := by decide
  ⟨hp, hd, loadProviders_perm _ _ hp hd⟩

end Adele
