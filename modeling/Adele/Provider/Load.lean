import Adele.Provider.Priority
import Adele.Provider.Registry

/-!
# The two-phase load

Model of `LoadProviders` (`provider/provider.go:52-99`).

* A load runs on an environment `Env W`: the world, and the log of the callbacks made so far
  with the error each returned, as the call-tracking mocks of `provider_test.go` record them.
  `Env.invoke` makes one callback. The log records what the code calls; nothing in it is read by
  the loader.
* `registerLoop` is the first loop (`provider.go:60-82`): skip a disabled provider, `Configure`
  it when it implements `ConfigurableProvider` and a non-nil payload is set, `Register` it, and
  append it to `registeredProviders`. `bootLoop` is the second (`provider.go:85-95`).
* An early `return fmt.Errorf(...)` is `.error` (or `some`), with the error `wrapError` builds:
  the format's text, the callback's `Error()`, and the callback's error as the wrapped one.
* The loader state and the registry are fixed during a load: the spec says the store is read-only
  there (§3), and `LoadProviders` sorts a copy of the registry before the first callback.

`loadSpec` is the load as the spec words it (§4.4): filter the registry by `IsProviderEnabled`,
stably sort it by priority (`List.mergeSort`), run phase one over it, then phase two only if
phase one finished.

Results:
* `filter_sortProvidersByPriority` — filtering after the sort, as the code does, gives the stable
  sort of the enabled providers.
* `loadProviders_eq_spec` — `LoadProviders` makes exactly the callbacks of `loadSpec`, leaves the
  same world, and returns the same error.
-/

namespace Adele

variable {W : Type}

/-- A provider callback the loader made. -/
inductive Call where
  | configure (name : String) (config : Config)
  | register (name : String)
  | boot (name : String)

/-- The provider a callback went to. -/
def Call.name : Call → String
  | .configure name _ => name
  | .register name => name
  | .boot name => name

/-- What a load acts on: the world, and the callbacks made so far with the error each returned,
oldest first. -/
structure Env (W : Type) where
  app : W
  log : List (Call × Option GoError)

/-- The callbacks made so far, oldest first. -/
def Env.calls (e : Env W) : List Call := e.log.map Prod.fst

/-- Make one callback: run it on the world, log it with its error. -/
def Env.invoke (e : Env W) (c : Call) (f : Callback W) : Env W × Option GoError :=
  ((⟨(f e.app).1, e.log ++ [(c, (f e.app).2)]⟩ : Env W), (f e.app).2)

/-- `fmt.Errorf("failed to <verb> provider '%s': %w", name, err)`. -/
def wrapError (verb name : String) (err : GoError) : GoError :=
  .wrap ("failed to " ++ verb ++ " provider \x27" ++ name ++ "\x27: " ++ err.error) err

/-- The error of a failed `Configure` (`provider.go:71`). -/
def configureError (name : String) (err : GoError) : GoError := wrapError "configure" name err

/-- The error of a failed `Register` (`provider.go:78`). -/
def registerError (name : String) (err : GoError) : GoError := wrapError "register" name err

/-- The error of a failed required `Boot` (`provider.go:93`). -/
def bootError (name : String) (err : GoError) : GoError := wrapError "boot" name err

/-- `Configure(config)` when the provider implements it and a non-nil payload is set
(`provider.go:68-74`); nothing otherwise. -/
def configureStep (p : Provider) (prov : ServiceProvider W) (e : Env W) :
    Env W × Option GoError :=
  match prov.configure, p.getProviderConfig prov.name with
  | some configure, some config => e.invoke (.configure prov.name config) (configure config)
  | _, _ => (e, none)

namespace Provider

/-- The first loop of `LoadProviders` (`provider.go:60-82`) over the providers left to visit:
the environment after it, and `registeredProviders` or the error it returns. -/
def registerLoop (p : Provider) :
    List (ServiceProvider W) → Env W → List (ServiceProvider W) →
      Env W × Except GoError (List (ServiceProvider W))
  | [], e, registered => (e, .ok registered)
  | prov :: rest, e, registered =>
    if !p.isProviderEnabled prov.name then registerLoop p rest e registered
    else
      match configureStep p prov e with
      | (e, some err) => (e, .error (configureError prov.name err))
      | (e, none) =>
        match e.invoke (.register prov.name) prov.register with
        | (e, some err) => (e, .error (registerError prov.name err))
        | (e, none) => registerLoop p rest e (registered ++ [prov])

end Provider

/-- The second loop (`provider.go:85-95`): an error of a provider whose `IsOptional()` is true
is skipped, any other is returned. -/
def bootLoop : List (ServiceProvider W) → Env W → Env W × Option GoError
  | [], e => (e, none)
  | prov :: rest, e =>
    match e.invoke (.boot prov.name) prov.boot with
    | (e, some err) =>
      if prov.isOptional = some true then bootLoop rest e else (e, some (bootError prov.name err))
    | (e, none) => bootLoop rest e

namespace Provider

/-- `LoadProviders(app)` (`provider.go:52-99`) with the registry `globalProviders`: the
environment after the run, and the error it returns (`none` for `nil`). -/
def loadProviders (p : Provider) (globalProviders : List (ServiceProvider W)) (app : W) :
    Env W × Option GoError :=
  let providers := getRegisteredProviders globalProviders
  let sortedProviders := p.sortProvidersByPriority providers
  match p.registerLoop sortedProviders ⟨app, []⟩ [] with
  | (e, .error err) => (e, some err)
  | (e, .ok registeredProviders) => bootLoop registeredProviders e

/-! ## The load as the spec states it -/

/-- The providers a load visits, in order: the enabled ones, stably sorted by priority. -/
def loadOrder (p : Provider) (globalProviders : List (ServiceProvider W)) :
    List (ServiceProvider W) :=
  (globalProviders.filter fun prov => p.isProviderEnabled prov.name).mergeSort
    fun a b => decide (p.specPriority a ≤ p.specPriority b)

/-- Phase one: for each provider in order, `Configure` if it has one and a payload is set, then
`Register`; stop at the first error, wrapped with the provider's name. -/
def phaseOne (p : Provider) : List (ServiceProvider W) → Env W → Env W × Option GoError
  | [], e => (e, none)
  | prov :: rest, e =>
    let (e, cerr) := match prov.configure, p.getProviderConfig prov.name with
      | some configure, some config => e.invoke (.configure prov.name config) (configure config)
      | _, _ => (e, none)
    match cerr with
    | some err => (e, some (configureError prov.name err))
    | none =>
      let (e, rerr) := e.invoke (.register prov.name) prov.register
      match rerr with
      | some err => (e, some (registerError prov.name err))
      | none => phaseOne p rest e

/-- The `Configure` rule phase one writes out is the one of the code, `configureStep`. -/
theorem phaseOne_cons (p : Provider) (prov : ServiceProvider W) (rest : List (ServiceProvider W))
    (e : Env W) :
    p.phaseOne (prov :: rest) e =
      let (e, cerr) := configureStep p prov e
      match cerr with
      | some err => (e, some (configureError prov.name err))
      | none =>
        let (e, rerr) := e.invoke (.register prov.name) prov.register
        match rerr with
        | some err => (e, some (registerError prov.name err))
        | none => p.phaseOne rest e := by
  rw [phaseOne]
  rfl

end Provider

/-- Phase two: `Boot` each provider in the same order; an optional provider's error is skipped,
any other stops the run, wrapped with the provider's name. -/
def phaseTwo : List (ServiceProvider W) → Env W → Env W × Option GoError
  | [], e => (e, none)
  | prov :: rest, e =>
    let (e, berr) := e.invoke (.boot prov.name) prov.boot
    match berr, prov.isOptional with
    | none, _ => phaseTwo rest e
    | some _, some true => phaseTwo rest e
    | some err, _ => (e, some (bootError prov.name err))

namespace Provider

/-- The load of the spec: phase two runs only when phase one finished. -/
def loadSpec (p : Provider) (globalProviders : List (ServiceProvider W)) (app : W) :
    Env W × Option GoError :=
  match p.phaseOne (p.loadOrder globalProviders) ⟨app, []⟩ with
  | (e, some err) => (e, some err)
  | (e, none) => phaseTwo (p.loadOrder globalProviders) e

end Provider

/-! ## The code is the spec -/

namespace Provider

/-- The first loop skips the disabled providers and otherwise is phase one; when phase one
finishes, `registeredProviders` is the enabled providers in order. -/
theorem registerLoop_eq (p : Provider) :
    ∀ (l : List (ServiceProvider W)) (e : Env W) (acc : List (ServiceProvider W)),
      p.registerLoop l e acc =
        match p.phaseOne (l.filter fun prov => p.isProviderEnabled prov.name) e with
        | (e', some err) => (e', .error err)
        | (e', none) => (e', .ok (acc ++ l.filter fun prov => p.isProviderEnabled prov.name))
  | [], e, acc => by simp [registerLoop, phaseOne]
  | prov :: rest, e, acc => by
    by_cases hen : p.isProviderEnabled prov.name
    · simp only [registerLoop, hen, Bool.not_true, Bool.false_eq_true, ↓reduceIte,
        List.filter_cons_of_pos, phaseOne_cons]
      rcases configureStep p prov e with ⟨e₁, _ | err⟩
      · dsimp only
        rcases e₁.invoke (.register prov.name) prov.register with ⟨e₂, _ | err⟩
        · simp [registerLoop_eq p rest e₂]
        · rfl
      · rfl
    · simp [registerLoop, hen, registerLoop_eq p rest e]

end Provider

theorem bootLoop_eq_phaseTwo :
    ∀ (l : List (ServiceProvider W)) (e : Env W), bootLoop l e = phaseTwo l e
  | [], _ => rfl
  | prov :: rest, e => by
    simp only [bootLoop, phaseTwo]
    rcases e.invoke (.boot prov.name) prov.boot with ⟨e', _ | err⟩
    · exact bootLoop_eq_phaseTwo rest e'
    · rcases h : prov.isOptional with _ | _ | _ <;> simp [h, bootLoop_eq_phaseTwo rest e']

namespace Provider

/-- Filtering after the sort, as the code does, gives the stable sort of the enabled
providers. -/
theorem filter_sortProvidersByPriority (p : Provider) (R : List (ServiceProvider W)) :
    (p.sortProvidersByPriority R).filter (fun prov => p.isProviderEnabled prov.name) =
      p.loadOrder R := by
  refine @eq_of_sorted_of_filter_eq _ p.specPriority _ _
    (((perm_sortProvidersByPriority p R).filter _).trans (List.mergeSort_perm _ _).symm)
    ((sorted_sortProvidersByPriority p R).filter _) (sorted_mergeSort_by _) fun k => ?_
  rw [loadOrder, filter_mergeSort, List.filter_comm, filter_priority_sortProvidersByPriority,
    List.filter_comm]

/-- `LoadProviders` makes the callbacks of `loadSpec`, leaves its world and returns its error. -/
theorem loadProviders_eq_loadSpec (p : Provider) (R : List (ServiceProvider W)) (app : W) :
    p.loadProviders R app = p.loadSpec R app := by
  simp only [loadProviders, loadSpec, getRegisteredProviders, registerLoop_eq,
    filter_sortProvidersByPriority, List.nil_append]
  rcases p.phaseOne (p.loadOrder R) ⟨app, []⟩ with ⟨e, _ | err⟩
  · exact bootLoop_eq_phaseTwo _ e
  · rfl

end Provider

end Adele
