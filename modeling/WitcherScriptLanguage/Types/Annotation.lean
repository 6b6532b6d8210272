import Mathlib.Tactic.SplitIfs
import WitcherScriptLanguage.Symbols

/-!
# Type annotations

Parsing of annotation strings (`types/parse.rs`, `types/mod.rs`) and the substitution of generic
arguments into the members of `array` and `map` (`resolve/symbol_db/generics.rs`). Text is a list
of characters here.
-/

namespace WitcherScriptLanguage

/-- `char::is_whitespace`: the Unicode property `White_Space`. -/
def isWhitespace (c : Char) : Bool :=
  (0x9 ≤ c.toNat && c.toNat ≤ 0xD) || c.toNat == 0x20 || c.toNat == 0x85 || c.toNat == 0xA0 ||
    c.toNat == 0x1680 || (0x2000 ≤ c.toNat && c.toNat ≤ 0x200A) || c.toNat == 0x2028 ||
    c.toNat == 0x2029 || c.toNat == 0x202F || c.toNat == 0x205F || c.toNat == 0x3000

def trim (s : List Char) : List Char :=
  ((s.dropWhile isWhitespace).reverse.dropWhile isWhitespace).reverse

lemma length_trim_le (s : List Char) : (trim s).length ≤ s.length := by
  have h₁ := (List.dropWhile_suffix (p := isWhitespace) (l := s)).length_le
  have h₂ := (List.dropWhile_suffix (p := isWhitespace)
    (l := (s.dropWhile isWhitespace).reverse)).length_le
  rw [List.length_reverse] at h₂
  rw [trim, List.length_reverse]
  omega

/-- Splits `ctor<args>`; both parts are trimmed and nonempty. -/
def parseGenericType (s : List Char) : Option (List Char × List Char) :=
  let trimmed := trim s
  match trimmed.dropWhile (· ≠ '<') with
  | [] => none
  | _ :: afterLt =>
    if trimmed.getLast? ≠ some '>' then none
    else
      let ctor := trim (trimmed.takeWhile (· ≠ '<'))
      let element := trim afterLt.dropLast
      if ctor.isEmpty || element.isEmpty then none else some (ctor, element)

lemma length_args_lt {s ctor args : List Char} (h : parseGenericType s = some (ctor, args)) :
    args.length < s.length := by
  unfold parseGenericType at h
  dsimp only at h
  split at h
  · cases h
  · rename_i c afterLt hdrop
    split_ifs at h
    cases h
    have h₁ := length_trim_le afterLt.dropLast
    have h₂ := (List.dropWhile_suffix (p := (· ≠ '<')) (l := trim s)).length_le
    have h₃ := length_trim_le s
    rw [hdrop, List.length_cons] at h₂
    rw [List.length_dropLast] at h₁
    omega

/-- The constructor under which the database knows a type: `array<int>` is looked up as
`array`. -/
def lookupCtor (typeName : String) : String :=
  match parseGenericType typeName.toList with
  | some (ctor, _) => String.ofList ctor
  | none => typeName

/-- The loop of `split_type_args`; `current` holds the characters since the last comma,
reversed. -/
def splitTypeArgsFrom (depth : Nat) (current : List Char) : List Char → List (List Char)
  | [] => [trim current.reverse]
  | c :: rest =>
    if c = '<' then splitTypeArgsFrom (depth + 1) (c :: current) rest
    else if c = '>' then splitTypeArgsFrom (depth - 1) (c :: current) rest
    else if c = ',' && depth == 0 then trim current.reverse :: splitTypeArgsFrom depth [] rest
    else splitTypeArgsFrom depth (c :: current) rest

def splitTypeArgs (args : List Char) : List (List Char) := splitTypeArgsFrom 0 [] args

lemma length_part_le (depth : Nat) (current args : List Char) :
    ∀ part ∈ splitTypeArgsFrom depth current args,
      part.length ≤ current.length + args.length := by
  induction args generalizing depth current with
  | nil =>
    intro part hpart
    rw [splitTypeArgsFrom, List.mem_singleton] at hpart
    have h := length_trim_le current.reverse
    rw [List.length_reverse] at h
    rw [hpart, List.length_nil]
    omega
  | cons c rest ih =>
    intro part hpart
    rw [splitTypeArgsFrom] at hpart
    rw [List.length_cons]
    have hcons : ∀ depth', part ∈ splitTypeArgsFrom depth' (c :: current) rest →
        part.length ≤ current.length + (rest.length + 1) := by
      intro depth' h
      have hlen := ih depth' (c :: current) part h
      rw [List.length_cons] at hlen
      omega
    split_ifs at hpart
    · exact hcons _ hpart
    · exact hcons _ hpart
    · rcases List.mem_cons.mp hpart with rfl | h
      · have h := length_trim_le current.reverse
        rw [List.length_reverse] at h
        omega
      · have hlen := ih depth [] part h
        rw [List.length_nil] at hlen
        omega
    · exact hcons _ hpart

def primitiveAliases : List (String × Primitive) :=
  [("bool", .bool), ("Bool", .bool), ("byte", .byte), ("Uint8", .byte), ("int", .int),
    ("Int32", .int), ("Int16", .int16), ("Int8", .int8), ("Uint16", .uint16),
    ("Uint32", .uint32), ("Uint64", .uint64), ("float", .float), ("Float", .float),
    ("name", .name), ("CName", .name), ("string", .string), ("String", .string),
    ("StringAnsi", .stringAnsi)]

/-- An annotation without generic arguments. -/
def plainAnnotation (trimmed : List Char) : ScriptType :=
  match primitiveAliases.find? (fun spelling => spelling.1.toList == trimmed) with
  | some (_, p) => .primitive p
  | none => .named (String.ofList trimmed)

def fromAnnotationText (s : List Char) : ScriptType :=
  let trimmed := trim s
  if trimmed.isEmpty then .unknown
  else if trimmed = "void".toList then .void
  else
    match _hgeneric : parseGenericType trimmed with
    | none => plainAnnotation trimmed
    | some (ctor, args) =>
      match _hargs : splitTypeArgs args with
      | [element] =>
        if ctor = "array".toList then .array (fromAnnotationText element)
        else plainAnnotation trimmed
      | [key, value] =>
        if ctor = "map".toList then .map (fromAnnotationText key) (fromAnnotationText value)
        else plainAnnotation trimmed
      | _ => plainAnnotation trimmed
termination_by s.length
decreasing_by
  all_goals
    have hparts := length_part_le 0 [] args
    rw [← splitTypeArgs, _hargs] at hparts
    have hlt : args.length < (trim s).length := length_args_lt _hgeneric
    have htrim := length_trim_le s
    simp only [List.mem_cons, List.not_mem_nil, or_false, forall_eq_or_imp, forall_eq,
      List.length_nil] at hparts
    omega

def parseGenericInstance (container : String) : Option ScriptType :=
  if (parseGenericType container.toList).isSome then some (fromAnnotationText container.toList)
  else none

def genericElementPlaceholder : String := "T"

def mapKeyPlaceholder : String := "K"

def mapValuePlaceholder : String := "V"

def placeholderBinding (placeholder : String) : ScriptType → Option ScriptType
  | .array element => if placeholder = genericElementPlaceholder then some element else none
  | .map key value =>
    if placeholder = mapKeyPlaceholder then some key
    else if placeholder = mapValuePlaceholder then some value
    else none
  | _ => none

def substituteGenerics (container : ScriptType) : ScriptType → ScriptType
  | .named name => (placeholderBinding name container).getD (.named name)
  | .array element => .array (substituteGenerics container element)
  | .map key value => .map (substituteGenerics container key) (substituteGenerics container value)
  | t => t

def substituteInDefinition (d : Definition) (containerInstance : String)
    (container : ScriptType) : Definition :=
  { d with symbol := { d.symbol with
      typeAnnotation := d.symbol.typeAnnotation.map (substituteGenerics container)
      containerName := d.symbol.containerName.map (fun _ => containerInstance) } }

end WitcherScriptLanguage
