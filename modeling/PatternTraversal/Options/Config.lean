import PatternTraversal.Options.Basic
import PatternTraversal.Toml.Document

/-!
# Options from configuration text

The options stand under the key `optimizer` of a TOML document; a setting that is not given keeps
its default. Unknown settings and settings of another type are refused as unreadable, settings out
of range with the reason.
-/

namespace PatternTraversal

/-- Why options cannot be loaded. -/
inductive ConfigError where
  /-- The file is missing or holds no text. -/
  | read
  /-- The text is no document of options. -/
  | parse
  /-- A setting is out of range. -/
  | invalidValue (key value reason : String)
deriving DecidableEq, Repr

namespace ConfigError

/-- Machine-readable name of the cause. -/
def code : ConfigError → String
  | read => "ConfigRead"
  | parse => "ConfigParse"
  | invalidValue .. => "ConfigInvalidValue"

/-- Text for a reader. -/
def message : ConfigError → String
  | read => "failed to read optimizer config"
  | parse => "failed to parse optimizer config"
  | invalidValue key value reason => key ++ " = " ++ value ++ " is invalid: " ++ reason

end ConfigError

namespace Options

/-- Settings as they are given. -/
structure Given where
  exhaustiveLimit : Option Nat
  labelOnlyBonus : Option Int
  splitComponents : Option Bool
deriving DecidableEq, Repr

namespace Given

/-- No setting given. -/
def nothing : Given := ⟨none, none, none⟩

/-- Give one setting; one of another name or type is refused. -/
def set (given : Given) (key : String) (item : Toml.Item) : Option Given :=
  match key, item with
  | "exhaustive_limit", .integer n =>
    if 0 ≤ n then some { given with exhaustiveLimit := some n.toNat } else none
  | "label_only_bonus", .integer n => some { given with labelOnlyBonus := some n }
  | "split_components", .boolean b => some { given with splitComponents := some b }
  | _, _ => none

/-- Settings of the part of a document that holds them: a table, or an array of their values in the
order of the settings. -/
def ofItem? : Toml.Item → Option Given
  | .table _ entries => entries.foldlM (fun given entry => given.set entry.1 entry.2) nothing
  | .array (limit :: bonus :: split :: _) => do
    let given ← nothing.set "exhaustive_limit" limit
    let given ← given.set "label_only_bonus" bonus
    given.set "split_components" split
  | _ => none

/-- Settings of a document. -/
def ofText? (text : String) : Option Given := do
  let entries ← Toml.parse? text
  match entries.lookup "optimizer" with
  | none => pure nothing
  | some item => ofItem? item

end Given

/-- The options of given settings; the limit is checked first. -/
def ofGiven (given : Given) : Except ConfigError Options :=
  let limit := given.exhaustiveLimit.getD default.exhaustiveLimit
  let bonus := given.labelOnlyBonus.getD default.labelOnlyBonus
  if limit = 0 then
    .error (.invalidValue "optimizer.exhaustive_limit" (Nat.repr limit) "must be at least 1")
  else if limit > maxLimit then
    .error (.invalidValue "optimizer.exhaustive_limit" (Nat.repr limit) "must not exceed 10")
  else if bonus < 0 then
    .error (.invalidValue "optimizer.label_only_bonus" (Int.repr bonus) "must not be negative")
  else .ok ⟨limit, bonus, given.splitComponents.getD default.splitComponents⟩

/-- The options of a configuration text. -/
def ofText (text : String) : Except ConfigError Options :=
  match Given.ofText? text with
  | none => .error .parse
  | some given => ofGiven given

/-- The options of a file's bytes; a missing file has none. -/
def ofFile (bytes? : Option ByteArray) : Except ConfigError Options :=
  match bytes?.bind String.fromUTF8? with
  | none => .error .read
  | some text => ofText text

/-- Options are accepted exactly when the limit and the bonus are in range. -/
theorem ofGiven_eq_ok_iff (given : Given) (options : Options) :
    ofGiven given = .ok options ↔
      options = ⟨given.exhaustiveLimit.getD default.exhaustiveLimit,
        given.labelOnlyBonus.getD default.labelOnlyBonus,
        given.splitComponents.getD default.splitComponents⟩ ∧
      1 ≤ options.exhaustiveLimit ∧ options.exhaustiveLimit ≤ maxLimit ∧
      0 ≤ options.labelOnlyBonus := by
  dsimp only [ofGiven]
  constructor
  · intro h
    split at h
    · cases h
    split at h
    · cases h
    split at h
    · cases h
    cases h
    refine ⟨rfl, ?_, ?_, ?_⟩ <;> simp only <;> omega
  · rintro ⟨rfl, h₁, h₂, h₃⟩
    simp only at h₁ h₂ h₃
    rw [if_neg (by omega), if_neg (by omega), if_neg (by omega)]

end Options

end PatternTraversal
