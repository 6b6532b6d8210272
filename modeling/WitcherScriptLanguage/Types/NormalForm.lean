import Mathlib.Data.List.DropRight
import WitcherScriptLanguage.Library.ScannedPieces
import WitcherScriptLanguage.Types.Annotation

/-!
# The normal form of annotations

`Type::to_db_string` (`types/mod.rs`) spells a type for the database. The spelling of what was
read from an annotation differs from the annotation in white space and in the names of the
primitives only: brackets and commas are kept in their order, so the bracket scanner that splits
the arguments of `array` and `map` goes through the same depths in both.
-/

namespace WitcherScriptLanguage

open Library

def Primitive.canonical : Primitive → String
  | .bool => "bool"
  | .byte => "byte"
  | .int => "int"
  | .int16 => "Int16"
  | .int8 => "Int8"
  | .uint16 => "Uint16"
  | .uint32 => "Uint32"
  | .uint64 => "Uint64"
  | .float => "float"
  | .name => "name"
  | .string => "string"
  | .stringAnsi => "StringAnsi"

def ScriptType.toDbString : ScriptType → Option String
  | .void => some "void"
  | .primitive p => some p.canonical
  | .named name => some name
  | .array element => element.toDbString.map fun e => "array<" ++ e ++ ">"
  | .map key value => do
    let k ← key.toDbString
    let v ← value.toDbString
    some ("map<" ++ k ++ ", " ++ v ++ ">")
  | .null | .unknown => none

lemma trim_eq_rdropWhile (s : List Char) :
    trim s = (s.dropWhile isWhitespace).rdropWhile isWhitespace := rfl

/-- White space in front and white space behind is all that trimming removes. -/
lemma exists_eq_trim (s : List Char) : ∃ l r, s = l ++ (trim s ++ r) ∧
    (∀ c ∈ l, isWhitespace c = true) ∧ ∀ c ∈ r, isWhitespace c = true := by
  refine ⟨s.takeWhile isWhitespace, (s.dropWhile isWhitespace).rtakeWhile isWhitespace, ?_,
    fun c hc => List.mem_takeWhile_imp hc, fun c hc => List.mem_rtakeWhile_imp hc⟩
  rw [trim_eq_rdropWhile, List.rdropWhile_append_rtakeWhile, List.takeWhile_append_dropWhile]

@[simp] lemma trim_trim (s : List Char) : trim (trim s) = trim s := by
  have hfront : (trim s).dropWhile isWhitespace = trim s := by
    rw [List.dropWhile_eq_self_iff]
    intro hl
    have hbegins := List.rdropWhile_prefix isWhitespace (s.dropWhile isWhitespace)
    have hidem := List.dropWhile_idempotent isWhitespace s
    rw [List.dropWhile_eq_self_iff] at hidem
    have hlength := Nat.lt_of_lt_of_le hl hbegins.length_le
    have hhead : (trim s)[0] = (s.dropWhile isWhitespace)[0] := hbegins.getElem hl
    rw [hhead]
    exact hidem hlength
  rw [trim_eq_rdropWhile (trim s), hfront, trim_eq_rdropWhile, List.rdropWhile_idempotent]

/-- A text between two characters that are not white space is trimmed. -/
lemma trim_between {a c : Char} (ha : isWhitespace a = false) (hc : isWhitespace c = false)
    (l : List Char) : trim (a :: (l ++ [c])) = a :: (l ++ [c]) := by
  rw [trim_eq_rdropWhile, List.dropWhile_cons_of_neg (by simp [ha]), ← List.cons_append,
    List.rdropWhile_concat_neg _ _ _ (by simp [hc])]

lemma trim_cons_space (s : List Char) : trim (' ' :: s) = trim s := by
  rw [trim_eq_rdropWhile, List.dropWhile_cons_of_pos (by decide), ← trim_eq_rdropWhile]

/-- A trimmed text begins and ends with something else than white space. -/
lemma ends_of_trim_eq {s : List Char} (h : trim s = s) (hne : s ≠ []) :
    (∃ a l, s = a :: l ∧ isWhitespace a = false) ∧
      ∃ l c, s = l ++ [c] ∧ isWhitespace c = false := by
  have hfront : s.dropWhile isWhitespace = s := by
    have hle := (List.rdropWhile_prefix isWhitespace (s.dropWhile isWhitespace)).length_le
    rw [← trim_eq_rdropWhile, h] at hle
    exact List.dropWhile_suffix isWhitespace |>.eq_of_length_le hle
  constructor
  · cases s with
    | nil => exact absurd rfl hne
    | cons a l =>
      refine ⟨a, l, rfl, ?_⟩
      exact Bool.eq_false_iff.mpr (List.dropWhile_eq_self_iff.mp hfront (by simp))
  · rw [trim_eq_rdropWhile, hfront, List.rdropWhile_eq_self_iff] at h
    refine ⟨s.dropLast, s.getLast hne, (List.dropLast_append_getLast hne).symm, ?_⟩
    simpa using h hne

/-- Whatever stands between two trimmed texts, the whole is trimmed. -/
lemma trim_append_of_trim_eq {s s' : List Char} (h : trim s = s) (hne : s ≠ []) (h' : trim s' = s')
    (hne' : s' ≠ []) (between : List Char) : trim (s ++ (between ++ s')) = s ++ (between ++ s') := by
  obtain ⟨⟨a, l, hs, ha⟩, -⟩ := ends_of_trim_eq h hne
  obtain ⟨-, l', c, hs', hc⟩ := ends_of_trim_eq h' hne'
  have hends : s ++ (between ++ s') = a :: (l ++ (between ++ l') ++ [c]) := by
    simp [hs, hs']
  rw [hends]
  exact trim_between ha hc _

lemma trim_generic {ctor : List Char} (hctor : trim ctor = ctor) (hne : ctor ≠ [])
    (args : List Char) : trim (ctor ++ '<' :: (args ++ ['>'])) = ctor ++ '<' :: (args ++ ['>']) := by
  have hclose : trim ['>'] = ['>'] := rfl
  exact trim_append_of_trim_eq hctor hne hclose (by simp) ('<' :: args)

/-- The depth behind a character of `split_type_args`; a comma at depth zero splits. -/
def nextDepth (depth : Nat) (c : Char) : Option Nat :=
  if c = '<' then some (depth + 1)
  else if c = '>' then some (depth - 1)
  else if c = ',' && depth == 0 then none
  else some depth

/-- The depth behind a text, or `none` where the text has a comma at depth zero. -/
abbrev depthAfter (depth : Nat) (s : List Char) : Option Nat := Scanner.scan nextDepth depth s

/-- A character that is no bracket and no comma. -/
def isPlain (c : Char) : Bool := c != '<' && c != '>' && c != ','

lemma nextDepth_plain {c : Char} (h : isPlain c = true) (depth : Nat) :
    nextDepth depth c = some depth := by
  simp only [isPlain, Bool.and_eq_true, bne_iff_ne] at h
  simp [nextDepth, h]

lemma isPlain_of_isWhitespace {c : Char} (h : isWhitespace c = true) : isPlain c = true := by
  simp only [isPlain, Bool.and_eq_true, bne_iff_ne]
  refine ⟨⟨?_, ?_⟩, ?_⟩ <;> rintro rfl <;> exact absurd h (by decide)

lemma depthAfter_plain {s : List Char} (h : s.all isPlain = true) (depth : Nat) :
    depthAfter depth s = some depth :=
  Scanner.scan_of_neutral (fun c hc => nextDepth_plain (List.all_eq_true.mp h c hc)) depth

lemma depthAfter_trim (depth : Nat) (s : List Char) :
    depthAfter depth (trim s) = depthAfter depth s := by
  have hspace : ∀ c, isWhitespace c = true → ∀ depth, nextDepth depth c = some depth :=
    fun c hc => nextDepth_plain (isPlain_of_isWhitespace hc)
  obtain ⟨l, r, hs, hl, hr⟩ := exists_eq_trim s
  have hfront := Scanner.scan_of_neutral fun c hc => hspace c (hl c hc)
  have hback := Scanner.scan_of_neutral fun c hc => hspace c (hr c hc)
  conv_rhs => rw [hs]
  simp only [depthAfter, Scanner.scan_append, hfront, hback, Option.bind_some,
    Option.bind_fun_some]

lemma splitTypeArgsFrom_eq (depth : Nat) (current args : List Char) :
    splitTypeArgsFrom depth current args =
      ((Scanner.pieces nextDepth 0 depth args).modifyHead (current.reverse ++ ·)).map trim := by
  induction args generalizing depth current with
  | nil => simp [splitTypeArgsFrom, Scanner.pieces]
  | cons c rest ih =>
    have hgoOn : ∀ depth', nextDepth depth c = some depth' →
        splitTypeArgsFrom depth' (c :: current) rest =
          ((Scanner.pieces nextDepth 0 depth (c :: rest)).modifyHead
            (current.reverse ++ ·)).map trim := by
      intro depth' h
      rw [ih, Scanner.pieces_cons_of_some h, List.modifyHead_modifyHead]
      simp [Function.comp_def]
    rw [splitTypeArgsFrom]
    split_ifs with hopen hclose hcomma
    · exact hgoOn _ (by simp [nextDepth, hopen])
    · exact hgoOn _ (by simp [nextDepth, hclose])
    · rw [Scanner.pieces_cons_of_none (by simp [nextDepth, hopen, hclose, hcomma]), ih]
      have hzero : depth = 0 := by simpa using (Bool.and_eq_true_iff.mp hcomma).2
      subst hzero
      cases Scanner.pieces nextDepth 0 0 rest <;> simp
    · exact hgoOn _ (by simp [nextDepth, hopen, hclose, hcomma])

/-- The arguments are the pieces between the commas at depth zero. -/
lemma splitTypeArgs_eq (args : List Char) :
    splitTypeArgs args = (Scanner.pieces nextDepth 0 0 args).map trim := by
  rw [splitTypeArgs, splitTypeArgsFrom_eq]
  cases Scanner.pieces nextDepth 0 0 args <;> rfl

lemma splitTypeArgs_eq_singleton {args element : List Char} (h : splitTypeArgs args = [element]) :
    element = trim args ∧ ∃ e, depthAfter 0 args = some e := by
  rw [splitTypeArgs_eq] at h
  obtain ⟨x, hx, rfl⟩ := List.map_eq_singleton_iff.mp h
  obtain ⟨rfl, he⟩ := Scanner.eq_of_pieces_eq_singleton hx
  exact ⟨rfl, he⟩

lemma splitTypeArgs_eq_pair {args key value : List Char} (h : splitTypeArgs args = [key, value]) :
    ∃ a b, args = a ++ ',' :: b ∧ key = trim a ∧ value = trim b ∧
      depthAfter 0 a = some 0 ∧ ∃ e, depthAfter 0 b = some e := by
  rw [splitTypeArgs_eq] at h
  obtain ⟨x, rest, hpieces, rfl, hrest⟩ := List.map_eq_cons_iff.mp h
  obtain ⟨y, rfl, rfl⟩ := List.map_eq_singleton_iff.mp hrest
  obtain ⟨c, depth, rfl, hx, hc, hy⟩ := Scanner.eq_of_pieces_eq_pair hpieces
  have hcomma : c = ',' ∧ depth = 0 := by
    unfold nextDepth at hc
    split_ifs at hc with _ _ h
    simpa using h
  obtain ⟨rfl, rfl⟩ := hcomma
  exact ⟨x, y, rfl, rfl, rfl, hx, hy⟩

/-- A generic annotation is a constructor and its arguments in brackets. -/
lemma eq_of_parseGenericType {s ctor args : List Char}
    (h : parseGenericType s = some (ctor, args)) :
    ∃ pre body, trim s = pre ++ '<' :: (body ++ ['>']) ∧ ctor = trim pre ∧ args = trim body := by
  unfold parseGenericType at h
  dsimp only at h
  split at h
  · cases h
  · rename_i c afterLt hdrop
    split_ifs at h with hlast _
    cases h
    have hsplit : trim s = (trim s).takeWhile (· ≠ '<') ++ c :: afterLt := by
      rw [← hdrop, List.takeWhile_append_dropWhile]
    have hopen : c = '<' := by
      have hhead := List.head?_dropWhile_not (· ≠ '<') (trim s)
      rw [hdrop] at hhead
      simpa using hhead
    subst hopen
    rw [not_not, hsplit] at hlast
    have hclose : afterLt = afterLt.dropLast ++ ['>'] := by
      cases afterLt using List.reverseRecOn with
      | nil => simp at hlast
      | append_singleton l last =>
        rw [← List.cons_append, ← List.append_assoc, List.getLast?_concat] at hlast
        rw [List.dropLast_concat, Option.some.inj hlast]
    exact ⟨_, _, hclose ▸ hsplit, rfl, rfl⟩

/-- A constructor and arguments that are trimmed already are read back. -/
lemma parseGenericType_append {ctor args : List Char} (hctor : trim ctor = ctor)
    (hopen : '<' ∉ ctor) (hargs : trim args = args)
    (htrim : trim (ctor ++ '<' :: (args ++ ['>'])) = ctor ++ '<' :: (args ++ ['>']))
    (hctorNe : ctor ≠ []) (hargsNe : args ≠ []) :
    parseGenericType (ctor ++ '<' :: (args ++ ['>'])) = some (ctor, args) := by
  have hpos : ∀ c ∈ ctor, decide (c ≠ '<') = true := fun c hc =>
    decide_eq_true fun h => hopen (h ▸ hc)
  have hlast : (ctor ++ '<' :: (args ++ ['>'])).getLast? = some '>' := by
    rw [← List.cons_append, ← List.append_assoc, List.getLast?_concat]
  unfold parseGenericType
  simp only [htrim, hlast, List.dropWhile_append_of_pos hpos, List.takeWhile_append_of_pos hpos]
  simp [hctor, hargs, hctorNe, hargsNe]

/-- The depth behind a generic annotation whose constructor leaves the depth alone. -/
lemma depthAfter_generic {ctor : List Char} (hctor : ∀ d, depthAfter d ctor = some d)
    (depth : Nat) (args : List Char) :
    depthAfter depth (ctor ++ '<' :: (args ++ ['>'])) =
      (depthAfter (depth + 1) args).map (· - 1) := by
  have hopen : nextDepth depth '<' = some (depth + 1) := rfl
  have hclose : ∀ d, nextDepth d '>' = some (d - 1) := fun _ => rfl
  simp only [depthAfter, Scanner.scan_append, Scanner.scan_cons, Scanner.scan_nil, hctor, hopen,
    hclose, Option.bind_some]
  cases Scanner.scan nextDepth (depth + 1) args <;> rfl

lemma depthAfter_of_parseGenericType {s ctor args : List Char}
    (h : parseGenericType (trim s) = some (ctor, args))
    (hctor : ∀ d, depthAfter d ctor = some d) (depth : Nat) :
    depthAfter depth s = (depthAfter (depth + 1) args).map (· - 1) := by
  obtain ⟨pre, body, hs, rfl, rfl⟩ := eq_of_parseGenericType h
  rw [trim_trim] at hs
  rw [← depthAfter_trim depth s, hs, depthAfter_trim]
  exact depthAfter_generic (fun d => depthAfter_trim d pre ▸ hctor d) depth body

lemma fromAnnotation_eq (s : List Char) : fromAnnotationText s =
    if (trim s).isEmpty then .unknown
    else if trim s = "void".toList then .void
    else match parseGenericType (trim s) with
      | none => plainAnnotation (trim s)
      | some (ctor, args) => match splitTypeArgs args with
        | [element] =>
          if ctor = "array".toList then .array (fromAnnotationText element)
          else plainAnnotation (trim s)
        | [key, value] =>
          if ctor = "map".toList then .map (fromAnnotationText key) (fromAnnotationText value)
          else plainAnnotation (trim s)
        | _ => plainAnnotation (trim s) := by
  rw [fromAnnotationText]
  split_ifs
  · rfl
  · rfl
  · split
    · rename_i h
      rw [h]
    · rename_i h
      rw [h]
      dsimp only
      split
      · rename_i h
        simp only [h]
      · rename_i h
        simp only [h]
      · rename_i h₁ h₂
        split
        · exact absurd ‹_› (h₁ _)
        · exact absurd ‹_› (h₂ _ _)
        · rfl

lemma fromAnnotation_trim (s : List Char) : fromAnnotationText (trim s) = fromAnnotationText s := by
  rw [fromAnnotation_eq (trim s), trim_trim, ← fromAnnotation_eq]

/-- The ways in which an annotation is read. -/
lemma fromAnnotation_cases (s : List Char) :
    (trim s = [] ∧ fromAnnotationText s = .unknown) ∨
    (trim s = "void".toList ∧ fromAnnotationText s = .void) ∨
    (trim s ≠ [] ∧ fromAnnotationText s = plainAnnotation (trim s)) ∨
    (∃ args element, parseGenericType (trim s) = some ("array".toList, args) ∧
      splitTypeArgs args = [element] ∧ fromAnnotationText s = .array (fromAnnotationText element)) ∨
    (∃ args key value, parseGenericType (trim s) = some ("map".toList, args) ∧
      splitTypeArgs args = [key, value] ∧
      fromAnnotationText s = .map (fromAnnotationText key) (fromAnnotationText value)) := by
  have heq := fromAnnotation_eq s
  by_cases hempty : trim s = []
  · rw [if_pos (List.isEmpty_iff.mpr hempty)] at heq
    exact .inl ⟨hempty, heq⟩
  rw [if_neg (mt List.isEmpty_iff.mp hempty)] at heq
  by_cases hvoid : trim s = "void".toList
  · rw [if_pos hvoid] at heq
    exact .inr (.inl ⟨hvoid, heq⟩)
  rw [if_neg hvoid] at heq
  refine .inr (.inr ?_)
  split at heq
  · exact .inl ⟨hempty, heq⟩
  · rename_i ctor args hgeneric
    split at heq
    · rename_i element hargs
      split_ifs at heq with hctor
      · exact .inr (.inl ⟨args, element, hctor ▸ hgeneric, hargs, heq⟩)
      · exact .inl ⟨hempty, heq⟩
    · rename_i key value hargs
      split_ifs at heq with hctor
      · exact .inr (.inr ⟨args, key, value, hctor ▸ hgeneric, hargs, heq⟩)
      · exact .inl ⟨hempty, heq⟩
    · exact .inl ⟨hempty, heq⟩

lemma fromAnnotation_generic {ctor args : List Char} (hctor : trim ctor = ctor)
    (hctorNe : ctor ≠ []) (hopen : '<' ∉ ctor) (hargs : trim args = args)
    (hargsNe : args ≠ []) :
    fromAnnotationText (ctor ++ '<' :: (args ++ ['>'])) = match splitTypeArgs args with
      | [element] =>
        if ctor = "array".toList then .array (fromAnnotationText element)
        else plainAnnotation (ctor ++ '<' :: (args ++ ['>']))
      | [key, value] =>
        if ctor = "map".toList then .map (fromAnnotationText key) (fromAnnotationText value)
        else plainAnnotation (ctor ++ '<' :: (args ++ ['>']))
      | _ => plainAnnotation (ctor ++ '<' :: (args ++ ['>'])) := by
  have htrim := trim_generic hctor hctorNe args
  have hvoid : ctor ++ '<' :: (args ++ ['>']) ≠ "void".toList := by
    intro h
    have hmem : '<' ∈ "void".toList := h ▸ (by simp)
    exact absurd hmem (by decide)
  rw [fromAnnotation_eq, htrim, if_neg (by simp), if_neg hvoid,
    parseGenericType_append hctor hopen hargs htrim hctorNe hargsNe]

/-- The spelling of an array is read as the array of what its element is read as. -/
lemma fromAnnotation_array {e : List Char} {d : Nat} (htrim : trim e = e) (hne : e ≠ [])
    (hdepth : depthAfter 0 e = some d) :
    fromAnnotationText ("array".toList ++ '<' :: (e ++ ['>'])) = .array (fromAnnotationText e) := by
  have hsplit : splitTypeArgs e = [e] := by
    rw [splitTypeArgs_eq, Scanner.pieces_of_scan hdepth, List.map_singleton, htrim]
  rw [fromAnnotation_generic (by decide) (by decide) (by decide) htrim hne, hsplit]
  exact if_pos rfl

/-- The spelling of a map is read as the map of what its parts are read as, if the brackets of
the key close where they should. -/
lemma fromAnnotation_map {k v : List Char} {d : Nat} (hk : trim k = k) (hkNe : k ≠ [])
    (hv : trim v = v) (hvNe : v ≠ []) (hkey : depthAfter 0 k = some 0)
    (hvalue : depthAfter 0 v = some d) :
    fromAnnotationText ("map".toList ++ '<' :: ((k ++ ([',', ' '] ++ v)) ++ ['>'])) =
      .map (fromAnnotationText k) (fromAnnotationText v) := by
  have hspace : depthAfter 0 (' ' :: v) = some d := hvalue
  have hsplit : splitTypeArgs (k ++ ([',', ' '] ++ v)) = [k, v] := by
    rw [splitTypeArgs_eq, List.cons_append, Scanner.pieces_append hkey rfl,
      List.singleton_append, Scanner.pieces_of_scan hspace]
    simp [hk, hv, trim_cons_space]
  rw [fromAnnotation_generic (by decide) (by decide) (by decide)
    (trim_append_of_trim_eq hk hkNe hv hvNe _) (by simp), hsplit]
  exact if_pos rfl

/-! ### The normal form -/

/-- A trimmed text that goes through the depths of an annotation and is read as the same type. -/
structure NormalForm (r s : List Char) : Prop where
  trimmed : trim r = r
  ne_nil : r ≠ []
  depth : ∀ d, depthAfter d r = depthAfter d s
  read : fromAnnotationText r = fromAnnotationText s

lemma normalForm_trim {s : List Char} (h : trim s ≠ []) : NormalForm (trim s) s where
  trimmed := trim_trim s
  ne_nil := h
  depth d := depthAfter_trim d s
  read := fromAnnotation_trim s

lemma fromAnnotation_spelling {spelling : String} {p : Primitive}
    (h : (spelling, p) ∈ primitiveAliases) : fromAnnotationText spelling.toList = .primitive p := by
  have hread : ∀ entry ∈ primitiveAliases, trim entry.1.toList = entry.1.toList ∧
      entry.1.toList.isEmpty = false ∧ entry.1.toList ≠ "void".toList ∧
      parseGenericType entry.1.toList = none ∧
      plainAnnotation entry.1.toList = .primitive entry.2 := by decide
  obtain ⟨htrim, hempty, hvoid, hgeneric, hplain⟩ := hread _ h
  rw [fromAnnotation_eq, htrim, hempty, if_neg Bool.false_ne_true, if_neg hvoid, hgeneric]
  exact hplain

/-- The canonical name of a primitive stands for every other spelling of it. -/
lemma normalForm_canonical {s : List Char} {spelling : String} {p : Primitive}
    (h : (spelling, p) ∈ primitiveAliases) (hs : trim s = spelling.toList) :
    NormalForm p.canonical.toList s := by
  have hcanonical : (p.canonical, p) ∈ primitiveAliases := by
    cases p <;> decide
  have hplain : ∀ entry ∈ primitiveAliases, trim entry.1.toList = entry.1.toList ∧
      entry.1.toList ≠ [] ∧ entry.1.toList.all isPlain = true := by decide
  obtain ⟨htrim, hne, hchars⟩ := hplain _ hcanonical
  refine ⟨htrim, hne, fun d => ?_, ?_⟩
  · rw [depthAfter_plain hchars, ← depthAfter_trim d s, hs, depthAfter_plain (hplain _ h).2.2]
  · rw [fromAnnotation_spelling hcanonical, ← fromAnnotation_trim s, hs,
      fromAnnotation_spelling h]

lemma normalForm_plain {s : List Char} {s' : String} (hne : trim s ≠ [])
    (hread : fromAnnotationText s = plainAnnotation (trim s))
    (h : (fromAnnotationText s).toDbString = some s') : NormalForm s'.toList s := by
  rw [hread, plainAnnotation] at h
  split at h
  · rename_i spelling p hfind
    obtain rfl := Option.some.inj h
    have hs := List.find?_some hfind
    exact normalForm_canonical (List.mem_of_find?_eq_some hfind) (beq_iff_eq.mp hs).symm
  · obtain rfl := Option.some.inj h
    rw [String.toList_ofList]
    exact normalForm_trim hne

/-- The spelling of an element gives the spelling of the array. -/
lemma NormalForm.array {s args element e : List Char}
    (hgeneric : parseGenericType (trim s) = some ("array".toList, args))
    (hargs : splitTypeArgs args = [element])
    (hread : fromAnnotationText s = .array (fromAnnotationText element))
    (he : NormalForm e element) :
    NormalForm ("array".toList ++ '<' :: (e ++ ['>'])) s := by
  have hctor : ∀ d, depthAfter d "array".toList = some d := depthAfter_plain (by decide)
  obtain ⟨rfl, d, hd⟩ := splitTypeArgs_eq_singleton hargs
  have hdepth : ∀ d, depthAfter d e = depthAfter d args := fun d => by
    rw [he.depth, depthAfter_trim]
  refine ⟨trim_generic rfl (by decide) e, by simp, fun d => ?_, ?_⟩
  · rw [depthAfter_generic hctor, depthAfter_of_parseGenericType hgeneric hctor, hdepth]
  · rw [fromAnnotation_array he.trimmed he.ne_nil ((hdepth 0).trans hd), he.read, hread]

/-- The spellings of the key and the value give the spelling of the map. -/
lemma NormalForm.map {s args key value k v : List Char}
    (hgeneric : parseGenericType (trim s) = some ("map".toList, args))
    (hargs : splitTypeArgs args = [key, value])
    (hread : fromAnnotationText s = .map (fromAnnotationText key) (fromAnnotationText value))
    (hk : NormalForm k key) (hv : NormalForm v value) :
    NormalForm ("map".toList ++ '<' :: ((k ++ ([',', ' '] ++ v)) ++ ['>'])) s := by
  have hctor : ∀ d, depthAfter d "map".toList = some d := depthAfter_plain (by decide)
  obtain ⟨a, b, rfl, rfl, rfl, ha, d, hb⟩ := splitTypeArgs_eq_pair hargs
  have hkdepth : ∀ d, depthAfter d k = depthAfter d a := fun d => by
    rw [hk.depth, depthAfter_trim]
  have hvdepth : ∀ d, depthAfter d v = depthAfter d b := fun d => by
    rw [hv.depth, depthAfter_trim]
  have hspace : ∀ d, nextDepth d ' ' = some d := fun _ => rfl
  refine ⟨trim_generic rfl (by decide) _, by simp, fun d => ?_, ?_⟩
  · -- the comma is met at the same depth, and the space behind it does not change the depth
    have hsame : depthAfter (d + 1) (k ++ ([',', ' '] ++ v)) =
        depthAfter (d + 1) (a ++ ',' :: b) := by
      simp only [depthAfter] at hkdepth hvdepth ⊢
      simp only [List.cons_append, List.nil_append, Scanner.scan_append, Scanner.scan_cons,
        hspace, Option.bind_some, hkdepth, hvdepth]
    rw [depthAfter_generic hctor, depthAfter_of_parseGenericType hgeneric hctor, hsame]
  · rw [fromAnnotation_map hk.trimmed hk.ne_nil hv.trimmed hv.ne_nil ((hkdepth 0).trans ha)
      ((hvdepth 0).trans hb), hk.read, hv.read, hread]

lemma length_lt_of_splitTypeArgs {s ctor args part : List Char}
    (hgeneric : parseGenericType (trim s) = some (ctor, args)) (h : part ∈ splitTypeArgs args) :
    part.length < s.length := by
  have hpart := length_part_le 0 [] args part h
  have hargs := length_args_lt hgeneric
  have htrim := length_trim_le s
  rw [List.length_nil] at hpart
  omega

/-- The spelling of what an annotation is read as is a normal form of the annotation. -/
lemma normalForm_toDbString (s : List Char) (s' : String)
    (h : (fromAnnotationText s).toDbString = some s') : NormalForm s'.toList s := by
  induction hn : s.length using Nat.strong_induction_on generalizing s s' with
  | _ n ih =>
  subst hn
  obtain ⟨-, hread⟩ | ⟨hvoid, hread⟩ | ⟨hne, hread⟩ | ⟨args, element, hgeneric, hargs, hread⟩ |
    ⟨args, key, value, hgeneric, hargs, hread⟩ := fromAnnotation_cases s
  · rw [hread] at h
    cases h
  · rw [hread] at h
    obtain rfl := Option.some.inj h
    rw [← hvoid]
    exact normalForm_trim (by rw [hvoid]; decide)
  · exact normalForm_plain hne hread h
  · rw [hread] at h
    obtain ⟨e, he, rfl⟩ := Option.map_eq_some_iff.mp h
    have hlt : element.length < s.length :=
      length_lt_of_splitTypeArgs hgeneric (by simp [hargs])
    have hform := NormalForm.array hgeneric hargs hread (ih _ hlt element e he rfl)
    simpa using hform
  · rw [hread] at h
    obtain ⟨k, hk, h⟩ := Option.bind_eq_some_iff.mp h
    obtain ⟨v, hv, hs'⟩ := Option.bind_eq_some_iff.mp h
    obtain rfl := Option.some.inj hs'
    have hklt : key.length < s.length := length_lt_of_splitTypeArgs hgeneric (by simp [hargs])
    have hvlt : value.length < s.length := length_lt_of_splitTypeArgs hgeneric (by simp [hargs])
    have hform := NormalForm.map hgeneric hargs hread (ih _ hklt key k hk rfl)
      (ih _ hvlt value v hv rfl)
    simpa using hform

/-- Annotations have a stable normal form: what is spelled for the database is read as the type
it was spelled from. -/
theorem fromAnnotation_toDbString (s : List Char) (s' : String)
    (h : (fromAnnotationText s).toDbString = some s') :
    fromAnnotationText s'.toList = fromAnnotationText s :=
  (normalForm_toDbString s s' h).read

/-- A key with a bracket too many, next to an array of a primitive under its other name. -/
lemma toDbString_unbalancedKey :
    (fromAnnotationText " map< a> ,array< Uint8 >>".toList).toDbString =
      some "map<a>, array<byte>>" := by
  have hkey : fromAnnotationText "a>".toList = .named "a>" := by
    rw [fromAnnotation_eq]
    decide
  have hbyte : fromAnnotationText "Uint8".toList = .primitive .byte :=
    fromAnnotation_spelling (by decide)
  have hvalue : fromAnnotationText "array< Uint8 >".toList = .array (.primitive .byte) := by
    rw [fromAnnotation_eq, ← hbyte]
    rfl
  rw [fromAnnotation_eq]
  have hmap : parseGenericType (trim " map< a> ,array< Uint8 >>".toList) =
      some ("map".toList, "a> ,array< Uint8 >".toList) := by decide
  rw [hmap]
  have hargs : splitTypeArgs "a> ,array< Uint8 >".toList =
      ["a>".toList, "array< Uint8 >".toList] := by decide
  dsimp only
  rw [hargs]
  dsimp only
  rw [hkey, hvalue]
  decide

theorem fromAnnotation_toDbString_unbalancedKey :
    fromAnnotationText "map<a>, array<byte>>".toList =
      fromAnnotationText " map< a> ,array< Uint8 >>".toList :=
  fromAnnotation_toDbString _ _ toDbString_unbalancedKey

end WitcherScriptLanguage
