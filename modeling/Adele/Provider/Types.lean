import Mathlib.Logic.Basic

/-!
# Providers, the loader and its configuration store

Model of `provider/types.go` and of the store accessors of `provider/provider.go:26-49`.

* A provider (`ServiceProvider`, `types.go:10-15`) acts on a world `W`: the host application
  passed as `app`, and whatever else its callbacks change (their own fields included). A
  callback maps the world to the new world and its error, `none` for `nil`, so every outcome of
  every callback, and every dependence of one on the world an earlier one left, is a choice of
  these functions.
* The optional interfaces `ConfigurableProvider`, `PriorityProvider` and `OptionalProvider`
  (`types.go:17-33`) are `Option` fields: `none` when the dynamic type does not implement the
  method, so the type assertions of the loader are `match`es on them. `Name()`, `Priority()`
  and `IsOptional()` are read as values: the loader calls them, it never depends on when.
* A Go `error` is its `Error()` text and, for one built by `fmt.Errorf` with `%w`, the error it
  wraps (`GoError.wrap`).
* The loader's maps are their lookups. `GetProviderConfig` returns the stored payload, and the
  nil map when the key is missing; the model writes the nil map as `none`, so a missing key and
  a stored `nil` are one case, as they are for every reader in the code.

Out of scope: the diagnostic `fmt.Print*` lines (nothing reads them), and the panic of a write
to a nil map (every loader in the code and its tests is built with `make`).
-/

namespace Adele

/-- A Go `error` value: its `Error()` text, and the error `errors.Unwrap` returns. -/
inductive GoError where
  /-- An error that wraps nothing, such as one from `errors.New(text)`. -/
  | new (text : String)
  /-- `fmt.Errorf` with one `%w` verb: the formatted text and the wrapped error. -/
  | wrap (text : String) (inner : GoError)
  deriving DecidableEq, Repr

/-- `err.Error()`. -/
def GoError.error : GoError → String
  | .new text => text
  | .wrap text _ => text

/-- `errors.Unwrap(err)`. -/
def GoError.unwrap : GoError → Option GoError
  | .new _ => none
  | .wrap _ inner => some inner

/-- A dynamic value of a configuration payload (`interface{}`), by its Go type. -/
inductive Value where
  | int (n : Int)
  | int64 (n : Int)
  | float64 (x : Float)
  | string (s : String)
  | bool (b : Bool)
  deriving Repr, Inhabited

/-- A configuration payload, `map[string]interface{}`, as its lookup. -/
abbrev Config := String → Option Value

/-- A provider callback: the world after it, and its error. -/
abbrev Callback (W : Type) := W → W × Option GoError

/-- A registered provider (`ServiceProvider`) and the optional interfaces its dynamic type
implements. -/
structure ServiceProvider (W : Type) where
  /-- `Name()`. -/
  name : String
  /-- `Register(app)`. -/
  register : Callback W
  /-- `Boot(app)`. -/
  boot : Callback W
  /-- `ConfigurableProvider.Configure(config)`. -/
  configure : Option (Config → Callback W)
  /-- `PriorityProvider.Priority()`. -/
  priority : Option Int
  /-- `OptionalProvider.IsOptional()`. -/
  isOptional : Option Bool

/-- The loader (`Provider`, `types.go:4-8`): `EnabledProviders` and `ProviderConfigs`. -/
structure Provider where
  enabledProviders : String → Option Bool
  providerConfigs : String → Option Config

namespace Provider

/-- `IsProviderEnabled` (`provider.go:27-33`): the stored flag, `true` when none is stored. -/
def isProviderEnabled (p : Provider) (name : String) : Bool :=
  match p.enabledProviders name with
  | some enabled => enabled
  | none => true

/-- `GetProviderConfig` (`provider.go:36-38`). -/
def getProviderConfig (p : Provider) (name : String) : Option Config :=
  p.providerConfigs name

/-- `SetProviderEnabled` (`provider.go:41-43`). -/
def setProviderEnabled (p : Provider) (name : String) (enabled : Bool) : Provider :=
  { p with enabledProviders := fun n => if n = name then some enabled else p.enabledProviders n }

/-- `SetProviderConfig` (`provider.go:46-49`); `none` stores the nil map. -/
def setProviderConfig (p : Provider) (name : String) (config : Option Config) : Provider :=
  { p with providerConfigs := fun n => if n = name then config else p.providerConfigs n }

@[simp] theorem isProviderEnabled_setProviderEnabled (p : Provider) (name n : String)
    (enabled : Bool) :
    (p.setProviderEnabled name enabled).isProviderEnabled n =
      if n = name then enabled else p.isProviderEnabled n := by
  unfold isProviderEnabled setProviderEnabled
  by_cases h : n = name <;> simp [h]

@[simp] theorem getProviderConfig_setProviderConfig (p : Provider) (name n : String)
    (config : Option Config) :
    (p.setProviderConfig name config).getProviderConfig n =
      if n = name then config else p.getProviderConfig n := rfl

@[simp] theorem isProviderEnabled_setProviderConfig (p : Provider) (name n : String)
    (config : Option Config) :
    (p.setProviderConfig name config).isProviderEnabled n = p.isProviderEnabled n := rfl

@[simp] theorem getProviderConfig_setProviderEnabled (p : Provider) (name n : String)
    (enabled : Bool) :
    (p.setProviderEnabled name enabled).getProviderConfig n = p.getProviderConfig n := rfl

end Provider

end Adele
