import Mathlib.Data.List.Nodup

/-!
# Settings from named variables

A setting has a name, a default, and a format its text is read in.  A variable that is not
set, is empty or cannot be read leaves the default.  What can be set at all is therefore the
default and what the format can write.
-/

namespace Conduit.Settings

/-- The value of a variable, if it is set. -/
abbrev Environment := String → Option String

/-- How values are read and written.  The values that can be written are those that can
be read from a text that is not empty. -/
structure Format (Value : Type) where
  read : String → Option Value
  write : Value → String
  Writable : Value → Prop
  write_ne : ∀ {value}, Writable value → write value ≠ ""
  read_write : ∀ {value}, Writable value → read (write value) = some value
  writable_of_read : ∀ {text value}, text ≠ "" → read text = some value → Writable value

/-- An empty variable counts as one that is not set. -/
def lookup (env : Environment) (name : String) : Option String :=
  (env name).filter (· ≠ "")

namespace Format

variable {Value : Type} (format : Format Value)

def get (env : Environment) (name : String) (dest : Value) : Value :=
  ((lookup env name).bind format.read).getD dest

/-- The text that sets a value. -/
def assign [DecidableEq Value] (dest value : Value) : Option String :=
  if value = dest then none else some (format.write value)

def Settable (dest value : Value) : Prop :=
  value = dest ∨ format.Writable value

theorem settable_get (env : Environment) (name : String) (dest : Value) :
    format.Settable dest (format.get env name dest) := by
  rw [get]
  cases hvalue : (lookup env name).bind format.read with
  | none => exact .inl rfl
  | some value =>
      obtain ⟨text, htext, hread⟩ := Option.bind_eq_some_iff.mp hvalue
      have hne : text ≠ "" := of_decide_eq_true (Option.filter_eq_some_iff.mp htext).2
      exact .inr (format.writable_of_read hne hread)

theorem get_assign [DecidableEq Value] {env : Environment} {name : String} {dest value : Value}
    (henv : env name = format.assign dest value) (hvalue : format.Settable dest value) :
    format.get env name dest = value := by
  rw [get, lookup, henv, assign]
  split
  next hdefault => exact hdefault.symm
  next hother =>
    have hwritable : format.Writable value := hvalue.resolve_left hother
    rw [Option.filter_some, if_pos (decide_eq_true (format.write_ne hwritable)), Option.bind_some,
      format.read_write hwritable, Option.getD_some]

end Format

/-- A setting with the value it is to have. -/
structure Setting where
  {Value : Type}
  [decidableEq : DecidableEq Value]
  format : Format Value
  name : String
  dest : Value
  value : Value

namespace Setting

def Settable (setting : Setting) : Prop :=
  setting.format.Settable setting.dest setting.value

def text (setting : Setting) : Option String :=
  haveI := setting.decidableEq
  setting.format.assign setting.dest setting.value

/-- The setting has its value in an environment. -/
def Read (env : Environment) (setting : Setting) : Prop :=
  setting.format.get env setting.name setting.dest = setting.value

end Setting

/-- The environment that sets every setting to its value. -/
def environment (settings : List Setting) : Environment := fun name =>
  (settings.find? (·.name = name)).bind Setting.text

theorem read_environment {settings : List Setting} (hnames : (settings.map Setting.name).Nodup)
    {setting : Setting} (hsetting : setting ∈ settings) (hsettable : setting.Settable) :
    setting.Read (environment settings) := by
  have hfound : settings.find? (·.name = setting.name) = some setting := by
    induction settings with
    | nil => exact absurd hsetting List.not_mem_nil
    | cons first settings ih =>
        rw [List.map_cons, List.nodup_cons] at hnames
        rcases List.mem_cons.mp hsetting with rfl | hlater
        · exact List.find?_cons_of_pos (decide_eq_true rfl)
        · have hother : first.name ≠ setting.name := by
            intro hsame
            apply hnames.1
            rw [hsame]
            exact List.mem_map_of_mem hlater
          rw [List.find?_cons_of_neg (by simpa using hother)]
          exact ih hnames.2 hlater
  have henv : environment settings setting.name = setting.text := by
    rw [environment, hfound, Option.bind_some]
  exact @Format.get_assign _ setting.format setting.decidableEq _ _ _ _ henv hsettable

end Conduit.Settings
