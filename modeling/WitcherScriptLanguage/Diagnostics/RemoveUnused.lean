import WitcherScriptLanguage.Library.SeparatedLists
import WitcherScriptLanguage.Refactor.Statements

/-!
# The ranges that remove unused names

The edit that a report of unused names offers (`diagnostics/unused_symbol/removal.rs` and the
emitting half of `unused_symbol.rs`). A name or a parameter group goes with one of its commas,
a whole declaration goes as a statement, and a field takes its `default` and `hint` entries with
it.
-/

namespace WitcherScriptLanguage

open Library

namespace SyntaxTree

open Cst

variable (t : SyntaxTree)

def nextSibling (p : Node) : Option Node :=
  p.getLast?.bind fun i => (t.children p.dropLast)[i + 1]?

def prevSibling (p : Node) : Option Node :=
  p.getLast?.bind fun i => if i = 0 then none else (t.children p.dropLast)[i - 1]?

def isConstantLiteral (p : Node) : Bool :=
  [Kind.literalInt, .literalHex, .literalFloat, .literalString, .literalName, .literalBool,
    .literalNull].contains (t.kind p)

/-- The sibling behind a comma that is next to the node. -/
def beyondComma (step : Node → Option Node) (node : Node) : Option Node :=
  ((step node).filter fun n => t.kind n = .comma).bind step

def separator (node : Node) : Splice :=
  removeListEntry (t.byteRange node) ((t.beyondComma t.prevSibling node).map t.byteRange)
    ((t.beyondComma t.nextSibling node).map t.byteRange)

def targets (names : List (List Char)) (entry : Node) : Bool :=
  (t.childByFieldName entry .member).any fun member => names.contains (t.text member)

/-- The `default` and `hint` entries of the names, in the body around the field. -/
def defaultEntries (field : Node) (names : List (List Char)) : List Node :=
  match parent field with
  | none => []
  | some body => (t.children body).flatMap fun child =>
    match t.kind child with
    | .memberDefaultVal | .memberHint => [child].filter (t.targets names)
    | .memberDefaultValBlock =>
      ((t.children child).filter fun a => t.kind a = .memberDefaultValBlockAssign).filter
        (t.targets names)
    | _ => []

/-- What one report removes: an entry of a list, or the whole declaration, and the `default` and
`hint` entries of the names. -/
structure Removal where
  target : Node
  whole : Bool
  defaults : List Node

namespace Removal

def ranges (t : SyntaxTree) (r : Removal) : List Splice :=
  (if r.whole then t.statement r.target else t.separator r.target) :: r.defaults.map t.statement

end Removal

structure UnusedDiagnostic where
  message : String
  noun : String
  /-- The part that is shown faded. -/
  range : ByteRange
  removal : Removal

def UnusedDiagnostic.removeRanges (t : SyntaxTree) (d : UnusedDiagnostic) : List Splice :=
  d.removal.ranges t

def nameOf (ident : Node) : String := String.ofList (t.text ident)

def quoted (idents : List Node) : String :=
  ", ".intercalate (idents.map fun ident => "'" ++ t.nameOf ident ++ "'")

def neverUsed (singular plural : String) (unused : List Node) : String :=
  if unused.length = 1 then singular ++ " " ++ t.quoted unused ++ " is never used"
  else plural ++ " " ++ t.quoted unused ++ " are never used"

def emitParamDims (node : Node) (names unused : List Node) : List UnusedDiagnostic :=
  if unused.length = names.length then
    [{ message := t.neverUsed "Parameter" "Parameters" unused
       noun := if unused.length = 1 then "param" else "params"
       range := t.byteRange node
       removal := ⟨node, false, []⟩ }]
  else unused.map fun ident =>
    { message := t.neverUsed "Parameter" "Parameters" [ident]
      noun := "param"
      range := t.byteRange ident
      removal := ⟨ident, false, []⟩ }

def varDeclNouns : Kind → String × String
  | .localVarDeclStmt => ("Local variable", "Local variables")
  | _ => ("Field", "Fields")

def removeNouns : Kind → String × String
  | .localVarDeclStmt => ("var", "vars")
  | _ => ("field", "fields")

def assignmentToken (node : Node) : Option Node :=
  (t.children node).find? fun c => t.kind c = .equals

def fieldDefaults (node : Node) (unused : List Node) : List Node :=
  if t.kind node = .memberVarDecl then t.defaultEntries node (unused.map t.text) else []

def emitVarDeclDims (node : Node) (names unused : List Node) : List UnusedDiagnostic :=
  let (singular, plural) := varDeclNouns (t.kind node)
  let (removeSingular, removePlural) := removeNouns (t.kind node)
  if unused.length = names.length then
    let literalInit := (t.childByFieldName node .initValue).any t.isConstantLiteral
    -- A computed initialiser stays bright, a literal one fades too.
    let stop := match t.assignmentToken node with
      | some eq => if literalInit then (t.byteRange node).stop else (t.byteRange eq).start
      | none => (t.byteRange node).stop
    [{ message := t.neverUsed singular plural unused
       noun := if unused.length = 1 then removeSingular else removePlural
       range := ⟨(t.byteRange node).start, stop⟩
       removal := ⟨node, true, t.fieldDefaults node unused⟩ }]
  else unused.map fun ident =>
    let stop := match t.nextSibling ident with
      | some comma =>
        if t.kind comma = .comma then (t.byteRange comma).stop else (t.byteRange ident).stop
      | none => (t.byteRange ident).stop
    { message := t.neverUsed singular plural [ident]
      noun := removeSingular
      range := ⟨(t.byteRange ident).start, stop⟩
      removal := ⟨ident, false, t.fieldDefaults node [ident]⟩ }

def isBodylessFunc (paramGroup : Node) : Bool :=
  (((parent paramGroup).bind parent).bind fun f => t.childByFieldName f .definition).any
    fun body => t.kind body = .nop

/-- The reports of a declaration; `isUnused` says which names have no references. -/
def checkUnused (isUnused : Node → Bool) (node : Node) : List UnusedDiagnostic :=
  if (t.childByFieldName node Field.annotation).isSome then []
  else
    let names := t.declNameIdents node
    let unused := names.filter isUnused
    if unused.isEmpty then []
    else if t.kind node = .funcParamGroup then
      if t.isBodylessFunc node then [] else t.emitParamDims node names unused
    else t.emitVarDeclDims node names unused

def isListEntry (c : Node) : Bool :=
  t.kind c = .funcParamGroup || t.kind c = .ident && t.field c = some .names

def token? (c : Node) : Option ListToken :=
  if t.kind c = .comma then some .separator else if t.isListEntry c then some .entry else none

def isLineComment (c : Node) : Bool := t.kind c = .comment && ['/', '/'].isPrefixOf (t.text c)

/-- A list without errors among the children of a node. -/
structure ErrorFreeList (list : Node) : Prop where
  has : t.Has list
  nonempty : ∀ c ∈ t.children list, (t.byteRange c).start < (t.byteRange c).stop
  separated : Separated ((t.children list).filterMap t.token?)
  /-- A line comment ends with its line. -/
  lines : (t.children list).IsChain fun c d => t.isLineComment c →
    '\n' ∈ sliceText t.source ⟨(t.byteRange c).stop, (t.byteRange d).start⟩
  commas : ∀ c ∈ t.children list, t.kind c = .comma → (t.get c).children = []

/-- A declaration without errors, in a list without errors if it is a parameter group. -/
structure ErrorFreeDecl (node : Node) : Prop where
  proper : t.Proper node
  names : t.ErrorFreeList node
  params : t.kind node = .funcParamGroup → t.ErrorFreeList node.dropLast
  entries : t.kind node = .memberVarDecl →
    ∀ n ∈ t.defaultEntries node ((t.declNameIdents node).map t.text), t.Proper n

/-- A token of the code: comments are none. -/
structure IsToken (q : Node) : Prop where
  proper : t.Proper q
  leaf : (t.get q).children = []

/-- The text that the edit leaves between two siblings. -/
def leftBetween (r : Splice) (c d : Node) : List Char :=
  if (t.byteRange c).stop ≤ r.start ∧ r.stop ≤ (t.byteRange d).start then
    sliceText t.source ⟨(t.byteRange c).stop, r.start⟩ ++
      sliceText t.source ⟨r.stop, (t.byteRange d).start⟩
  else sliceText t.source ⟨(t.byteRange c).stop, (t.byteRange d).start⟩

namespace Removal

/-- The node whose children are the list. -/
def list (r : Removal) : Node := if r.whole then r.target else r.target.dropLast

def mainRange (t : SyntaxTree) (r : Removal) : Splice :=
  if r.whole then t.statement r.target else t.separator r.target

/-- The children of the list that are left. -/
def kept (t : SyntaxTree) (r : Removal) : List Node :=
  (t.children r.list).filter fun c => (r.ranges t).all fun range => ¬t.Covers range c

/-- The edit takes the named entries, their separators and nothing else of the code; what is left
is a list of the other entries, and no line comment reaches code that it did not reach before. -/
structure Exact (t : SyntaxTree) (r : Removal) : Prop where
  disjoint : (r.ranges t).Pairwise fun a b => a.stop ≤ b.start ∨ b.stop ≤ a.start
  covered : ∀ n ∈ r.target :: r.defaults, ∃ range ∈ r.ranges t, t.Covers range n
  others : ∀ q, t.IsToken q → (∀ n ∈ r.target :: r.defaults, ¬n <+: q) →
    (∀ range ∈ r.ranges t, t.Misses range q) ∨
      t.kind q = .comma ∧ q.dropLast = r.list ∧ ∃ range ∈ r.ranges t, t.Covers range q
  separated : Separated ((r.kept t).filterMap t.token?)
  order : (r.kept t).filter t.isListEntry =
    ((t.children r.list).filter t.isListEntry).filter fun e => ¬r.target <+: e
  lines : (r.kept t).IsChain fun c d => t.isLineComment c →
    '\n' ∈ t.leftBetween (r.mainRange t) c d

/-- The target is not in a list with commas, or a comma is right behind it, or one is right in
front of it; there no line comment may stand in front of the comma, unless the line ends behind
the target. -/
def Detaches (t : SyntaxTree) (r : Removal) : Prop :=
  r.whole ∨ (∀ c ∈ t.children r.list, t.kind c ≠ .comma) ∨
    (∃ comma, t.nextSibling r.target = some comma ∧ t.kind comma = .comma) ∨
    ∃ comma, t.prevSibling r.target = some comma ∧ t.kind comma = .comma ∧
      ∀ c ∈ t.prevSibling comma, t.isLineComment c → ∀ d ∈ t.nextSibling r.target,
        '\n' ∈ sliceText t.source ⟨(t.byteRange r.target).stop, (t.byteRange d).start⟩

end Removal

variable {t} {list c q n : Node} {A B M : List Node} {s : Splice}

lemma eq_of_split (h : t.children list = A ++ c :: B) : c = list ++ [A.length] := by
  have hat : (t.children list)[A.length]? = some c := by
    rw [h, List.getElem?_append_right (Nat.le_refl _), Nat.sub_self]
    rfl
  rw [children, List.getElem?_map] at hat
  obtain ⟨i, hi, rfl⟩ := Option.map_eq_some_iff.mp hat
  obtain ⟨hlt, hget⟩ := List.getElem?_eq_some_iff.mp hi
  rw [List.getElem_range] at hget
  rw [hget]

lemma nextSibling_of_split (h : t.children list = A ++ c :: B) : t.nextSibling c = B.head? := by
  rw [eq_of_split h, nextSibling, List.getLast?_concat, Option.bind_some, List.dropLast_concat, h,
    List.getElem?_append_right (Nat.le_add_right _ 1), Nat.add_sub_cancel_left,
    List.getElem?_cons_succ, List.head?_eq_getElem?]

lemma prevSibling_of_split (h : t.children list = A ++ c :: B) : t.prevSibling c = A.getLast? := by
  rw [eq_of_split h, prevSibling, List.getLast?_concat, Option.bind_some, List.dropLast_concat, h]
  split_ifs with hzero
  · rw [List.length_eq_zero_iff.mp hzero]
    rfl
  · rw [List.getElem?_append_left (by omega), List.getLast?_eq_getElem?]

/-- The children follow each other in the text. -/
lemma pairwise_children (hlist : t.Has list) : (t.children list).Pairwise fun a b =>
    (t.byteRange a).stop ≤ (t.byteRange b).start := by
  have hpairwise : (List.range (t.get list).children.length).Pairwise (· < ·) :=
    List.pairwise_lt_range
  rw [children, List.pairwise_map]
  refine hpairwise.imp_of_mem fun {i j} hi hj hij => ?_
  have hchild : ∀ k ∈ List.range (t.get list).children.length, t.Has (list ++ [k]) := fun k hk =>
    (hlist.child (mem_children.mpr ⟨k, List.mem_range.mp hk, rfl⟩)).1
  exact t.wellFormed_root.before_of_lt hij (hchild i hi).get?_eq (hchild j hj).get?_eq

/-! ### Cutting a list -/

/-- What the removal does beside its list. -/
structure Removal.DefaultsApart (t : SyntaxTree) (r : Removal) : Prop where
  node : ∀ n ∈ r.defaults, t.Proper n
  list : ∀ n ∈ r.defaults, t.Proper r.list ∧ t.Disjoint n r.list
  apart : r.defaults.Pairwise (t.Disjoint)

/-- The removal cuts some children out of the list and leaves those in front and behind. -/
structure Removal.Cuts (t : SyntaxTree) (r : Removal) (A M B : List Node) : Prop where
  children : t.children r.list = A ++ (M ++ B)
  front : ∀ a ∈ A, (t.byteRange a).stop ≤ (r.mainRange t).start
  middle : ∀ m ∈ M, t.Covers (r.mainRange t) m
  back : ∀ b ∈ B, (r.mainRange t).stop ≤ (t.byteRange b).start
  target : r.target ∈ M
  commas : ∀ m ∈ M, m = r.target ∨ t.kind m = .comma
  inside : (t.byteRange r.list).start ≤ (r.mainRange t).start ∧
    (r.mainRange t).start ≤ (r.mainRange t).stop ∧
    (r.mainRange t).stop ≤ (t.byteRange r.list).stop

namespace Removal

variable {r : Removal}

lemma DefaultsApart.of_nil (h : r.defaults = []) : r.DefaultsApart t := by
  refine ⟨?_, ?_, ?_⟩
  · rw [h]
    exact nofun
  · rw [h]
    exact nofun
  · rw [h]
    exact List.Pairwise.nil

lemma ranges_eq : r.ranges t = r.mainRange t :: r.defaults.map t.statement := rfl

lemma mem_child (hlist : t.Has list) (hc : c ∈ t.children list) :
    t.Has c ∧ c ≠ [] ∧ (t.byteRange list).start ≤ (t.byteRange c).start ∧
      (t.byteRange c).stop ≤ (t.byteRange list).stop := by
  have hhas := (hlist.child hc).1
  obtain ⟨i, -, rfl⟩ := mem_children.mp hc
  exact ⟨hhas, List.concat_ne_nil _ _, inside_of_prefix hhas (List.prefix_append _ _)⟩

/-- The deletion of a `default` or `hint` entry leaves the list alone. -/
lemma DefaultsApart.outside (h : r.DefaultsApart t) {range : Splice}
    (hrange : range ∈ r.defaults.map t.statement) :
    (t.byteRange r.list).stop ≤ range.start ∨ range.stop ≤ (t.byteRange r.list).start := by
  obtain ⟨n, hn, rfl⟩ := List.mem_map.mp hrange
  obtain ⟨hlist, hdisjoint⟩ := h.list n hn
  exact misses_statement (h.node n hn).has hlist hdisjoint

/-- The children that are left are those in front of the cut and those behind it. -/
lemma Cuts.kept_eq (h : r.Cuts t A M B) (hok : t.ErrorFreeList r.list)
    (hdefaults : r.DefaultsApart t) : r.kept t = A ++ B := by
  have hchild : ∀ c ∈ t.children r.list, _ := fun c hc => mem_child hok.has hc
  have hleft : ∀ c ∈ t.children r.list, t.Misses (r.mainRange t) c →
      ((r.ranges t).all fun range => ¬t.Covers range c) = true := by
    intro c hc hmisses
    obtain ⟨hhas, hinner, hstart, hstop⟩ := hchild c hc
    have hlt := hok.nonempty c hc
    rw [List.all_eq_true, ranges_eq]
    intro range hrange
    rw [decide_eq_true_iff]
    rcases List.mem_cons.mp hrange with rfl | hrange
    · exact not_covers_of_misses hlt hmisses
    · rintro ⟨hcovered, hcovered'⟩
      rcases hdefaults.outside hrange with houtside | houtside <;> omega
  rw [kept, h.children, List.filter_append, List.filter_append]
  have hmem : ∀ c, c ∈ A ∨ c ∈ B → c ∈ t.children r.list := by
    intro c hc
    rw [h.children]
    rcases hc with hc | hc
    · exact List.mem_append_left _ hc
    · exact List.mem_append_right _ (List.mem_append_right _ hc)
  rw [List.filter_eq_self.mpr fun a ha => hleft a (hmem a (.inl ha)) (.inl (h.front a ha)),
    List.filter_eq_self.mpr fun b hb => hleft b (hmem b (.inr hb)) (.inr (h.back b hb)),
    List.filter_eq_nil_iff.mpr, List.nil_append]
  intro m hm hall
  rw [List.all_eq_true] at hall
  have hcovers := hall (r.mainRange t) List.mem_cons_self
  rw [decide_eq_true_iff] at hcovers
  exact hcovers (h.middle m hm)

/-- The deletions beside the list share no text with each other or with the cut. -/
lemma Cuts.disjoint (h : r.Cuts t A M B) (hdefaults : r.DefaultsApart t) :
    (r.ranges t).Pairwise fun a b => a.stop ≤ b.start ∨ b.stop ≤ a.start := by
  obtain ⟨hstart, -, hstop⟩ := h.inside
  rw [ranges_eq, List.pairwise_cons, List.pairwise_map]
  constructor
  · intro range hrange
    rcases hdefaults.outside hrange with houtside | houtside <;> omega
  · refine hdefaults.apart.imp_of_mem fun {m n} hm hn hapart => ?_
    rcases hapart with hle | hle
    · exact .inl (disjoint_statements (hdefaults.node m hm) (hdefaults.node n hn) hle)
    · exact .inr (disjoint_statements (hdefaults.node n hn) (hdefaults.node m hm) hle)

/-- A token is above no other node. -/
lemma disjoint_of_isToken (hq : t.IsToken q) (hn : t.Has n) (hbelow : ¬n <+: q) :
    t.Disjoint n q := by
  rcases nested_or_disjoint hn hq.proper.has with hnq | hqn | hdisjoint
  · exact absurd hnq hbelow
  · obtain ⟨rest, rfl⟩ := hqn
    cases rest with
    | nil => exact absurd (by rw [List.append_nil]) hbelow
    | cons i rest =>
      obtain ⟨b, hb⟩ := Option.isSome_iff_exists.mp hn
      obtain ⟨a, ha, hab⟩ := RangedTree.get?_append_eq_some hb
      cases hq.proper.has.get?_eq.symm.trans ha
      rw [RangedTree.get?, hq.leaf] at hab
      cases hab
  · exact hdisjoint

lemma misses_of_inside {d : Node} (h : t.Misses s d) (hq : t.Has q) (hbelow : d <+: q) :
    t.Misses s q := by
  obtain ⟨hstart, hstop⟩ := inside_of_prefix hq hbelow
  rcases h with h | h
  · exact .inl (hstop.trans h)
  · exact .inr (h.trans hstart)

/-- The cut takes no other token than commas of the list. -/
lemma Cuts.others_main (h : r.Cuts t A M B) (hok : t.ErrorFreeList r.list) (hq : t.IsToken q)
    (hbelow : ¬r.target <+: q) : t.Misses (r.mainRange t) q ∨
      t.kind q = .comma ∧ q.dropLast = r.list ∧ t.Covers (r.mainRange t) q := by
  by_cases hlist : r.list <+: q
  · obtain ⟨rest, rfl⟩ := hlist
    cases rest with
    | nil =>
      -- the list itself is no token, since it has children
      have hmem : r.target ∈ t.children r.list := by
        rw [h.children]
        exact List.mem_append_right _ (List.mem_append_left _ h.target)
      obtain ⟨i, hi, -⟩ := mem_children.mp hmem
      have hleaf := hq.leaf
      rw [List.append_nil] at hleaf
      rw [hleaf] at hi
      exact absurd hi (Nat.not_lt_zero _)
    | cons i rest =>
      have hprefix : r.list ++ [i] <+: r.list ++ i :: rest := ⟨rest, by simp⟩
      have hchild : t.Has (r.list ++ [i]) := hq.proper.has.of_prefix hprefix
      have hmem : r.list ++ [i] ∈ t.children r.list := by
        refine mem_children.mpr ⟨i, ?_, rfl⟩
        obtain ⟨b, hb⟩ := Option.isSome_iff_exists.mp hchild
        rw [RangedTree.get?_append, hok.has.get?_eq, Option.bind_some] at hb
        obtain ⟨d, hd, -⟩ := Option.bind_eq_some_iff.mp hb
        exact (List.getElem?_eq_some_iff.mp hd).1
      rw [h.children, List.mem_append, List.mem_append] at hmem
      rcases hmem with hA | hM | hB
      · exact .inl (misses_of_inside (.inl (h.front _ hA)) hq.proper.has hprefix)
      · rcases h.commas _ hM with htarget | hcomma
        · exact absurd (htarget ▸ hprefix) hbelow
        · have hleaf := hok.commas _ (by
            rw [h.children]
            exact List.mem_append_right _ (List.mem_append_left _ hM)) hcomma
          cases rest with
          | nil => exact .inr ⟨hcomma, List.dropLast_concat, h.middle _ hM⟩
          | cons j rest =>
            obtain ⟨b, hb⟩ := Option.isSome_iff_exists.mp hq.proper.has
            have hsplit : r.list ++ i :: j :: rest = (r.list ++ [i]) ++ j :: rest := by simp
            rw [hsplit] at hb
            obtain ⟨a, ha, hab⟩ := RangedTree.get?_append_eq_some hb
            cases hchild.get?_eq.symm.trans ha
            rw [RangedTree.get?, hleaf] at hab
            cases hab
      · exact .inl (misses_of_inside (.inr (h.back _ hB)) hq.proper.has hprefix)
  · obtain ⟨hstart, -, hstop⟩ := h.inside
    rcases disjoint_of_isToken hq hok.has hlist with hle | hle
    · exact .inl (.inr (hstop.trans hle))
    · exact .inl (.inl (hle.trans hstart))

lemma not_prefix_sibling (hlist : t.children list = A ++ c :: B) (hq : q ∈ A ∨ q ∈ B) :
    ¬c <+: q := by
  intro hprefix
  have hnodup : (t.children list).Nodup := by
    rw [children]
    exact List.nodup_range.map fun i j hij => by simpa using hij
  rw [hlist] at hnodup
  have hc := eq_of_split hlist
  have hmem : q ∈ t.children list := by
    rw [hlist]
    rcases hq with hq | hq
    · exact List.mem_append_left _ hq
    · exact List.mem_append_right _ (List.mem_cons_of_mem _ hq)
  obtain ⟨i, -, rfl⟩ := mem_children.mp hmem
  have heq : c = list ++ [i] := by
    refine hprefix.eq_of_length ?_
    rw [hc, List.length_append, List.length_append]
    rfl
  have hapart := List.nodup_append.mp hnodup
  rcases hq with hq | hq
  · exact hapart.2.2 _ hq _ List.mem_cons_self heq.symm
  · exact (List.nodup_cons.mp hapart.2.1).1 (heq ▸ hq)

/-- A cut around an entry is exact when it leaves a list, and every line comment its line. -/
theorem Cuts.exact_iff (h : r.Cuts t A M B) (hok : t.ErrorFreeList r.list)
    (hdefaults : r.DefaultsApart t) (hentry : t.isListEntry r.target = true) :
    r.Exact t ↔ Separated ((A ++ B).filterMap t.token?) ∧
      (A ++ B).IsChain fun c d => t.isLineComment c → '\n' ∈ t.leftBetween (r.mainRange t) c d := by
  have hkept := h.kept_eq hok hdefaults
  constructor
  · intro hexact
    rw [← hkept]
    exact ⟨hexact.separated, hexact.lines⟩
  · rintro ⟨hseparated, hlines⟩
    refine ⟨h.disjoint hdefaults, ?_, ?_, hkept ▸ hseparated, ?_, hkept ▸ hlines⟩
    · intro n hn
      rcases List.mem_cons.mp hn with rfl | hn
      · exact ⟨r.mainRange t, List.mem_cons_self, h.middle _ h.target⟩
      · exact ⟨t.statement n, List.mem_cons_of_mem _ (List.mem_map_of_mem hn),
          covers_statement (hdefaults.node n hn).has⟩
    · intro q hq hbelow
      rcases h.others_main hok hq (hbelow _ List.mem_cons_self) with
        hmisses | ⟨hcomma, hparent, hcovers⟩
      · refine .inl fun range hrange => ?_
        rcases List.mem_cons.mp hrange with rfl | hrange
        · exact hmisses
        · obtain ⟨n, hn, rfl⟩ := List.mem_map.mp hrange
          have hhas := (hdefaults.node n hn).has
          exact misses_statement hhas hq.proper
            (disjoint_of_isToken hq hhas (hbelow n (List.mem_cons_of_mem _ hn)))
      · exact .inr ⟨hcomma, hparent, r.mainRange t, List.mem_cons_self, hcovers⟩
    · obtain ⟨front, back, hM⟩ := List.append_of_mem h.target
      have hsplit : t.children r.list = (A ++ front) ++ r.target :: (back ++ B) := by
        rw [h.children, hM]
        simp only [List.append_assoc, List.cons_append]
      have hother : ∀ m ∈ M, m ≠ r.target → t.isListEntry m = false := by
        intro m hm hne
        have hcomma := (h.commas m hm).resolve_left hne
        simp [isListEntry, hcomma]
      have hprefix : ∀ c ∈ A ++ front ++ (back ++ B), ¬r.target <+: c := by
        intro c hc
        exact not_prefix_sibling hsplit (List.mem_append.mp hc)
      have hself : ∀ l : List Node, (∀ c ∈ l, ¬r.target <+: c) →
          (l.filter t.isListEntry).filter (fun e => ¬r.target <+: e) = l.filter t.isListEntry := by
        intro l hl
        exact List.filter_eq_self.mpr fun c hc => decide_eq_true (hl c (List.mem_of_mem_filter hc))
      have hnone : ∀ l : List Node, (∀ c ∈ l, c ∈ M) → (∀ c ∈ l, ¬r.target <+: c) →
          l.filter t.isListEntry = [] := by
        intro l hl hl'
        refine List.filter_eq_nil_iff.mpr fun c hc => ?_
        have hne : c ≠ r.target := fun heq => hl' c hc (heq ▸ List.prefix_rfl)
        rw [hother c (hl c hc) hne]
        exact Bool.false_ne_true
      have hmem : ∀ c, c ∈ front ∨ c ∈ back → c ∈ M := by
        intro c hc
        rw [hM]
        rcases hc with hc | hc
        · exact List.mem_append_left _ hc
        · exact List.mem_append_right _ (List.mem_cons_of_mem _ hc)
      have hA := hself A fun c hc => hprefix c (by simp [hc])
      have hB := hself B fun c hc => hprefix c (by simp [hc])
      have hfront := hnone front (fun c hc => hmem c (.inl hc)) fun c hc => hprefix c (by simp [hc])
      have hback := hnone back (fun c hc => hmem c (.inr hc)) fun c hc => hprefix c (by simp [hc])
      have hmiddle : M.filter t.isListEntry = [r.target] := by
        rw [hM, List.filter_append, List.filter_cons_of_pos hentry, hfront, hback, List.nil_append]
      have htarget : [r.target].filter (fun e => decide ¬r.target <+: e) = [] := by
        rw [List.filter_cons_of_neg (by simp)]
        rfl
      rw [hkept, h.children]
      simp only [List.filter_append, hmiddle, hA, hB, htarget, List.nil_append]

/-- Only at the cut itself can a line comment reach code that it did not reach before. -/
lemma Cuts.lines_iff (h : r.Cuts t A M B) (hok : t.ErrorFreeList r.list) :
    ((A ++ B).IsChain fun c d => t.isLineComment c →
        '\n' ∈ t.leftBetween (r.mainRange t) c d) ↔
      ∀ c ∈ A.getLast?, ∀ d ∈ B.head?, t.isLineComment c →
        '\n' ∈ sliceText t.source ⟨(t.byteRange c).stop, (r.mainRange t).start⟩ ++
          sliceText t.source ⟨(r.mainRange t).stop, (t.byteRange d).start⟩ := by
  have hmem : ∀ c, c ∈ A ∨ c ∈ B → (t.byteRange c).start < (t.byteRange c).stop := by
    intro c hc
    have hchild : c ∈ t.children r.list := by
      rw [h.children]
      rcases hc with hc | hc
      · exact List.mem_append_left _ hc
      · exact List.mem_append_right _ (List.mem_append_right _ hc)
    exact hok.nonempty c hchild
  have hchain := hok.lines
  rw [h.children] at hchain
  obtain ⟨hfront, hrest, -⟩ := List.isChain_append.mp hchain
  obtain ⟨-, hback, -⟩ := List.isChain_append.mp hrest
  obtain ⟨-, hordered, -⟩ := h.inside
  have hkeepsFront : A.IsChain fun c d => t.isLineComment c →
      '\n' ∈ t.leftBetween (r.mainRange t) c d := by
    refine hfront.imp_of_mem_imp fun c d hc hd hline => ?_
    have hlt := hmem d (.inl hd)
    have hle := h.front d hd
    rwa [leftBetween, if_neg (by omega)]
  have hkeepsBack : B.IsChain fun c d => t.isLineComment c →
      '\n' ∈ t.leftBetween (r.mainRange t) c d := by
    refine hback.imp_of_mem_imp fun c d hc hd hline => ?_
    have hlt := hmem c (.inr hc)
    have hle := h.back c hc
    rwa [leftBetween, if_neg (by omega)]
  rw [List.isChain_append]
  constructor
  · rintro ⟨-, -, hjoint⟩ c hc d hd hcomment
    have hline := hjoint c hc d hd hcomment
    rwa [leftBetween, if_pos ⟨h.front c (List.mem_of_getLast? hc), h.back d (List.mem_of_head? hd)⟩]
      at hline
  · intro hjoint
    refine ⟨hkeepsFront, hkeepsBack, fun c hc d hd hcomment => ?_⟩
    rw [leftBetween, if_pos ⟨h.front c (List.mem_of_getLast? hc), h.back d (List.mem_of_head? hd)⟩]
    exact hjoint c hc d hd hcomment

/-! ### The three cuts -/

lemma mainRange_eq (hwhole : r.whole = false) : r.mainRange t = t.separator r.target := by
  rw [mainRange, hwhole, if_neg Bool.false_ne_true]

lemma beyondComma_next {comma : Node} (h : t.children list = A ++ c :: comma :: B) :
    t.beyondComma t.nextSibling c = if t.kind comma = .comma then B.head? else none := by
  have hsplit : t.children list = (A ++ [c]) ++ comma :: B := by
    rw [h, List.append_assoc]
    rfl
  rw [beyondComma, nextSibling_of_split h, List.head?_cons, Option.filter_some,
    ← nextSibling_of_split hsplit]
  by_cases hcomma : t.kind comma = .comma
  · rw [decide_eq_true hcomma, if_pos rfl, Option.bind_some, if_pos hcomma]
  · rw [decide_eq_false hcomma, if_neg Bool.false_ne_true, Option.bind_none, if_neg hcomma]

lemma beyondComma_prev {comma : Node} (h : t.children list = (A ++ [comma]) ++ c :: B) :
    t.beyondComma t.prevSibling c =
      if t.kind comma = .comma then A.getLast? else none := by
  have hsplit : t.children list = A ++ comma :: (c :: B) := by
    rw [h, List.append_assoc]
    rfl
  rw [beyondComma, prevSibling_of_split h, List.getLast?_concat, Option.filter_some,
    ← prevSibling_of_split hsplit]
  by_cases hcomma : t.kind comma = .comma
  · rw [decide_eq_true hcomma, if_pos rfl, Option.bind_some, if_pos hcomma]
  · rw [decide_eq_false hcomma, if_neg Bool.false_ne_true, Option.bind_none, if_neg hcomma]

/-- No comma next to a node: nothing is taken but the node. -/
lemma beyondComma_eq_none {step : Node → Option Node}
    (h : ∀ comma, step c = some comma → t.kind comma ≠ .comma) : t.beyondComma step c = none := by
  rw [beyondComma]
  cases hstep : step c with
  | none => rfl
  | some comma =>
    rw [Option.filter_some, decide_eq_false (h comma hstep), if_neg Bool.false_ne_true]
    rfl

/-- What the three cuts have in common. -/
structure InList (t : SyntaxTree) (r : Removal) (A B : List Node) : Prop where
  whole : r.whole = false
  children : t.children r.list = A ++ r.target :: B
  entry : t.isListEntry r.target = true
  defaults : r.DefaultsApart t

lemma InList.token (h : r.InList t A B) : t.token? r.target = some .entry := by
  have hentry := h.entry
  have hcomma : t.kind r.target ≠ .comma := by
    intro heq
    simp [isListEntry, heq] at hentry
  rw [token?, if_neg hcomma, if_pos hentry]

lemma InList.tokens (h : r.InList t A B) : (t.children r.list).filterMap t.token? =
    A.filterMap t.token? ++ .entry :: B.filterMap t.token? := by
  rw [h.children, List.filterMap_append, List.filterMap_cons_some h.token]

/-- The neighbours in the text. -/
lemma InList.successive (h : r.InList t A B) (hlist : t.Has r.list) :
    (∀ a ∈ A, (t.byteRange a).stop ≤ (t.byteRange r.target).start) ∧
      ∀ b ∈ B, (t.byteRange r.target).stop ≤ (t.byteRange b).start := by
  have hpairwise := pairwise_children hlist
  rw [h.children, List.pairwise_append] at hpairwise
  exact ⟨fun a ha => hpairwise.2.2 a ha _ List.mem_cons_self,
    (List.pairwise_cons.mp hpairwise.2.1).1⟩

lemma InList.mem (h : r.InList t A B) (hlist : t.Has r.list) : t.Has r.target ∧ r.target ≠ [] ∧
    (t.byteRange r.list).start ≤ (t.byteRange r.target).start ∧
      (t.byteRange r.target).stop ≤ (t.byteRange r.list).stop := by
  refine mem_child hlist ?_
  rw [h.children]
  exact List.mem_append_right _ List.mem_cons_self

lemma mainRange_ends (hwhole : r.whole = false) {prev next : Option Node}
    (hprev : t.beyondComma t.prevSibling r.target = prev)
    (hnext : t.beyondComma t.nextSibling r.target = next) :
    r.mainRange t = removeListEntry (t.byteRange r.target) (prev.map t.byteRange)
      (next.map t.byteRange) := by
  rw [mainRange_eq hwhole, separator, hprev, hnext]

/-- The comma behind the target goes with it. -/
lemma InList.cuts_next {comma next : Node} (h : r.InList t A (comma :: next :: B))
    (hlist : t.Has r.list) (hcomma : t.kind comma = .comma) :
    r.Cuts t A [r.target, comma] (next :: B) ∧
      (r.mainRange t).start = (t.byteRange r.target).start := by
  have hnext : t.beyondComma t.nextSibling r.target = some next := by
    rw [beyondComma_next h.children, if_pos hcomma]
    rfl
  have hrange : r.mainRange t =
      ⟨(t.byteRange r.target).start, (t.byteRange next).start, []⟩ := by
    rw [mainRange_ends h.whole rfl hnext]
    cases t.beyondComma t.prevSibling r.target <;> rfl
  obtain ⟨hfront, hback⟩ := h.successive hlist
  obtain ⟨htarget, -, hinside⟩ := h.mem hlist
  have hpairwise := pairwise_children hlist
  rw [h.children, List.pairwise_append, List.pairwise_cons, List.pairwise_cons,
    List.pairwise_cons] at hpairwise
  obtain ⟨-, ⟨-, hbehindComma, hbehindNext, -⟩, -⟩ := hpairwise
  have hmem : ∀ c ∈ comma :: next :: B, _ := fun c hc => mem_child (t := t) hlist (c := c) (by
    rw [h.children]
    exact List.mem_append_right _ (List.mem_cons_of_mem _ hc))
  obtain ⟨hcommaHas, -⟩ := hmem comma List.mem_cons_self
  obtain ⟨hnextHas, -, -, hnextStop⟩ := hmem next (by simp)
  have htargetLe := start_le_stop htarget
  have hcommaLe := start_le_stop hcommaHas
  have hnextLe := start_le_stop hnextHas
  have htargetComma := hback comma List.mem_cons_self
  have hcommaNext := hbehindComma next List.mem_cons_self
  refine ⟨⟨?_, ?_, ?_, ?_, by simp, ?_, ?_⟩, by rw [hrange]⟩
  · rw [h.children]
    rfl
  · rw [hrange]
    exact hfront
  · rw [hrange]
    intro m hm
    rcases List.mem_cons.mp hm with rfl | hm
    · exact ⟨Nat.le_refl _, by dsimp only; omega⟩
    · rw [List.mem_singleton.mp hm]
      exact ⟨by dsimp only; omega, hcommaNext⟩
  · rw [hrange]
    intro b hb
    rcases List.mem_cons.mp hb with rfl | hb
    · exact Nat.le_refl _
    · have hle := hbehindNext b hb
      dsimp only
      omega
  · intro m hm
    rcases List.mem_cons.mp hm with rfl | hm
    · exact .inl rfl
    · rw [List.mem_singleton.mp hm]
      exact .inr hcomma
  · rw [hrange]
    dsimp only
    omega

/-- The comma in front of the target goes with it, when there is none behind. -/
lemma InList.cuts_prev {prev comma : Node} (h : r.InList t ((A ++ [prev]) ++ [comma]) B)
    (hlist : t.Has r.list) (hcomma : t.kind comma = .comma)
    (hnext : ∀ c, t.nextSibling r.target = some c → t.kind c ≠ .comma) :
    r.Cuts t (A ++ [prev]) [comma, r.target] B ∧
      r.mainRange t = ⟨(t.byteRange prev).stop, (t.byteRange r.target).stop, []⟩ := by
  have hprev : t.beyondComma t.prevSibling r.target = some prev := by
    rw [beyondComma_prev h.children, if_pos hcomma, List.getLast?_concat]
  have hrange : r.mainRange t = ⟨(t.byteRange prev).stop, (t.byteRange r.target).stop, []⟩ :=
    mainRange_ends h.whole hprev (beyondComma_eq_none hnext)
  obtain ⟨hfront, hback⟩ := h.successive hlist
  obtain ⟨htarget, -, hinside⟩ := h.mem hlist
  have hpairwise := pairwise_children hlist
  rw [h.children, List.pairwise_append, List.pairwise_append, List.pairwise_append] at hpairwise
  obtain ⟨⟨⟨-, -, hbeforePrev⟩, -, hbeforeComma⟩, -, -⟩ := hpairwise
  have hmem : ∀ c ∈ A ++ [prev] ++ [comma], _ := fun c hc => mem_child (t := t) hlist (c := c) (by
    rw [h.children]
    exact List.mem_append_left _ hc)
  obtain ⟨hcommaHas, -⟩ := hmem comma (by simp)
  obtain ⟨hprevHas, -, hprevStart, -⟩ := hmem prev (by simp)
  have htargetLe := start_le_stop htarget
  have hcommaLe := start_le_stop hcommaHas
  have hprevLe := start_le_stop hprevHas
  have hcommaTarget := hfront comma (by simp)
  have hprevComma := hbeforeComma prev (by simp) comma (by simp)
  refine ⟨⟨?_, ?_, ?_, ?_, by simp, ?_, ?_⟩, hrange⟩
  · rw [h.children]
    simp only [List.append_assoc, List.cons_append, List.nil_append]
  · rw [hrange]
    intro a ha
    rcases List.mem_append.mp ha with ha | ha
    · have hle := hbeforePrev a ha prev (by simp)
      dsimp only
      omega
    · rw [List.mem_singleton.mp ha]
  · rw [hrange]
    intro m hm
    rcases List.mem_cons.mp hm with rfl | hm
    · exact ⟨hprevComma, by dsimp only; omega⟩
    · rw [List.mem_singleton.mp hm]
      exact ⟨by dsimp only; omega, Nat.le_refl _⟩
  · rw [hrange]
    exact hback
  · intro m hm
    rcases List.mem_cons.mp hm with rfl | hm
    · exact .inr hcomma
    · rw [List.mem_singleton.mp hm]
      exact .inl rfl
  · rw [hrange]
    dsimp only
    omega

/-- Only the target goes. -/
lemma InList.cuts_sole (h : r.InList t A B) (hlist : t.Has r.list)
    (hprev : ∀ c, t.prevSibling r.target = some c → t.kind c ≠ .comma)
    (hnext : ∀ c, t.nextSibling r.target = some c → t.kind c ≠ .comma) :
    r.Cuts t A [r.target] B ∧ r.mainRange t =
      ⟨(t.byteRange r.target).start, (t.byteRange r.target).stop, []⟩ := by
  have hrange : r.mainRange t = ⟨(t.byteRange r.target).start, (t.byteRange r.target).stop, []⟩ :=
    mainRange_ends h.whole (beyondComma_eq_none hprev) (beyondComma_eq_none hnext)
  obtain ⟨hfront, hback⟩ := h.successive hlist
  obtain ⟨htarget, -, hinside⟩ := h.mem hlist
  have hle := start_le_stop htarget
  refine ⟨⟨h.children, ?_, ?_, ?_, by simp, ?_, ?_⟩, hrange⟩
  · rw [hrange]
    exact hfront
  · rw [hrange]
    intro m hm
    rw [List.mem_singleton.mp hm]
    exact ⟨Nat.le_refl _, Nat.le_refl _⟩
  · rw [hrange]
    exact hback
  · exact fun m hm => .inl (List.mem_singleton.mp hm)
  · rw [hrange]
    exact ⟨hinside.1, hle, hinside.2⟩

lemma sliceText_empty (source : List Char) (offset : Nat) :
    sliceText source ⟨offset, offset⟩ = [] := by
  unfold sliceText
  rw [Nat.sub_self]
  exact textBefore_append Char.utf8Size_pos [] _

/-- A line comment in front of a sibling ends in front of it. -/
lemma line_of_split (hok : t.ErrorFreeList list) (h : t.children list = A ++ n :: B) :
    ∀ c ∈ A.getLast?, t.isLineComment c →
      '\n' ∈ sliceText t.source ⟨(t.byteRange c).stop, (t.byteRange n).start⟩ := by
  have hchain := hok.lines
  rw [h] at hchain
  exact fun c hc => (List.isChain_append.mp hchain).2.2 c hc n rfl

/-- The removal of an entry. -/
theorem InList.exact_iff (h : r.InList t A B) (hok : t.ErrorFreeList r.list) :
    r.Exact t ↔ r.Detaches t := by
  have hseparated := hok.separated
  rw [h.tokens] at hseparated
  have hnextSibling := nextSibling_of_split h.children
  have hprevSibling := prevSibling_of_split h.children
  have hcommaToken : ∀ {comma : Node}, t.kind comma = .comma →
      t.token? comma = some .separator := fun hcomma => if_pos hcomma
  by_cases hnext : ∃ comma, t.nextSibling r.target = some comma ∧ t.kind comma = .comma
  · -- The comma behind it: always exact.
    refine iff_of_true ?_ (.inr (.inr (.inl hnext)))
    obtain ⟨comma, hbehind, hcomma⟩ := hnext
    rw [hnextSibling] at hbehind
    obtain ⟨rest, rfl⟩ := List.head?_eq_some_iff.mp hbehind
    rw [List.filterMap_cons_some (hcommaToken hcomma)] at hseparated
    cases rest with
    | nil =>
      have hlast := hseparated.last .separator (by simp)
      cases hlast
    | cons next rest =>
      obtain ⟨hcuts, hstart⟩ := h.cuts_next hok.has hcomma
      rw [hcuts.exact_iff hok h.defaults h.entry, hcuts.lines_iff hok]
      refine ⟨?_, fun c hc d hd hcomment => List.mem_append_left _ ?_⟩
      · rw [List.filterMap_append]
        exact hseparated.remove_next
      · rw [hstart]
        exact line_of_split hok h.children c hc hcomment
  · have hnext' : ∀ c, t.nextSibling r.target = some c → t.kind c ≠ .comma :=
      fun c hc hcomma => hnext ⟨c, hc, hcomma⟩
    by_cases hprev : ∃ comma, t.prevSibling r.target = some comma ∧ t.kind comma = .comma
    · -- The comma in front of it: exact unless a line comment runs into the rest.
      obtain ⟨comma, hfront, hcomma⟩ := hprev
      have hdetaches : r.Detaches t ↔ ∀ c ∈ t.prevSibling comma, t.isLineComment c →
          ∀ d ∈ t.nextSibling r.target,
            '\n' ∈ sliceText t.source ⟨(t.byteRange r.target).stop, (t.byteRange d).start⟩ := by
        have hmem : comma ∈ t.children r.list := by
          rw [h.children]
          exact List.mem_append_left _ (List.mem_of_getLast? (hprevSibling ▸ hfront))
        constructor
        · rintro (hwhole | hnone | hbehind | ⟨comma', hfront', -, hlines⟩)
          · rw [h.whole] at hwhole
            cases hwhole
          · exact absurd hcomma (hnone comma hmem)
          · exact absurd hbehind hnext
          · cases hfront.symm.trans hfront'
            exact hlines
        · exact fun hlines => .inr (.inr (.inr ⟨comma, hfront, hcomma, hlines⟩))
      rw [hprevSibling] at hfront
      obtain ⟨before, rfl⟩ := List.getLast?_eq_some_iff.mp hfront
      rw [List.filterMap_append, List.filterMap_cons_some (hcommaToken hcomma),
        List.filterMap_nil, List.append_assoc] at hseparated
      rcases List.eq_nil_or_concat' before with rfl | ⟨front, prev, rfl⟩
      · have hhead := hseparated.head .separator rfl
        cases hhead
      · obtain ⟨hcuts, hrange⟩ := h.cuts_prev hok.has hcomma hnext'
        have hprevComma : t.prevSibling comma = some prev := by
          have hsplit : t.children r.list = (front ++ [prev]) ++ comma :: (r.target :: B) := by
            rw [h.children]
            simp only [List.append_assoc, List.cons_append, List.nil_append]
          rw [prevSibling_of_split hsplit, List.getLast?_concat]
        rw [hcuts.exact_iff hok h.defaults h.entry, hcuts.lines_iff hok, hdetaches,
          hrange, hnextSibling, hprevComma, List.getLast?_concat]
        dsimp only
        constructor
        · rintro ⟨-, hlines⟩ c hc hcomment d hd
          cases hc
          have hline := hlines prev rfl d hd hcomment
          rwa [sliceText_empty, List.nil_append] at hline
        · intro hlines
          refine ⟨?_, fun c hc d hd hcomment => ?_⟩
          · rw [List.filterMap_append]
            exact hseparated.remove_prev
          · cases hc
            exact List.mem_append_right _ (hlines prev rfl hcomment d hd)
    · -- No comma next to it: only a sole entry may go.
      have hprev' : ∀ c, t.prevSibling r.target = some c → t.kind c ≠ .comma :=
        fun c hc hcomma => hprev ⟨c, hc, hcomma⟩
      obtain ⟨hcuts, hrange⟩ := h.cuts_sole hok.has hprev' hnext'
      rw [hcuts.exact_iff hok h.defaults h.entry, hcuts.lines_iff hok, hrange]
      constructor
      · rintro ⟨hleft, -⟩
        rw [List.filterMap_append] at hleft
        obtain ⟨hA, hB⟩ := hseparated.sole_of_remove hleft
        refine .inr (.inl fun c hc hcomma => ?_)
        rw [h.children, List.mem_append, List.mem_cons] at hc
        have hnotIn : ∀ l : List Node, l.filterMap t.token? = [] → c ∉ l := by
          intro l hl hmem
          have htoken := List.filterMap_eq_nil_iff.mp hl c hmem
          rw [hcommaToken hcomma] at htoken
          cases htoken
        rcases hc with hc | rfl | hc
        · exact hnotIn A hA hc
        · have htoken := h.token
          rw [hcommaToken hcomma] at htoken
          cases htoken
        · exact hnotIn B hB hc
      · rintro (hwhole | hnone | hbehind | ⟨comma, hfront, hcomma, -⟩)
        · rw [h.whole] at hwhole
          cases hwhole
        · have hnoSeparator : ∀ l : List Node, (∀ c ∈ l, c ∈ t.children r.list) →
              .separator ∉ l.filterMap t.token? := by
            intro l hl hmem
            obtain ⟨c, hc, htoken⟩ := List.mem_filterMap.mp hmem
            rw [token?, if_neg (hnone c (hl c hc))] at htoken
            split_ifs at htoken
            cases htoken
          obtain ⟨hA, hB⟩ := hseparated.sole_of_not_mem
            (hnoSeparator A fun c hc => by
              rw [h.children]
              exact List.mem_append_left _ hc)
            (hnoSeparator B fun c hc => by
              rw [h.children]
              exact List.mem_append_right _ (List.mem_cons_of_mem _ hc))
          refine ⟨?_, fun c hc d hd hcomment => List.mem_append_left _
            (line_of_split hok h.children c hc hcomment)⟩
          rw [List.filterMap_append, hA, hB]
          exact ⟨nofun, nofun, List.isChain_nil⟩
        · exact absurd hbehind hnext
        · exact absurd ⟨comma, hfront, hcomma⟩ hprev

/-- The removal of a whole declaration. -/
theorem exact_of_whole (hwhole : r.whole = true) (htarget : t.Proper r.target)
    (hdefaults : r.DefaultsApart t) : r.Exact t := by
  have hmain : r.mainRange t = t.statement r.target := by rw [mainRange, hwhole, if_pos rfl]
  have hlist : r.list = r.target := by rw [list, hwhole, if_pos rfl]
  have hchildren : ∀ c ∈ t.children r.list, r.target <+: c := by
    rw [hlist]
    exact fun c hc => prefix_of_mem_children hc
  have hkept : r.kept t = [] := by
    refine List.filter_eq_nil_iff.mpr fun c hc hall => ?_
    rw [List.all_eq_true] at hall
    have hcovers := hall (r.mainRange t) List.mem_cons_self
    rw [decide_eq_true_iff] at hcovers
    rw [hlist] at hc
    obtain ⟨-, -, hstart, hstop⟩ := mem_child htarget.has hc
    obtain ⟨hmainStart, hmainStop⟩ := covers_statement htarget.has
    rw [hmain] at hcovers
    exact hcovers ⟨hmainStart.trans hstart, hstop.trans hmainStop⟩
  have hnodes : ∀ n ∈ r.target :: r.defaults, t.Proper n := by
    intro n hn
    rcases List.mem_cons.mp hn with rfl | hn
    · exact htarget
    · exact hdefaults.node n hn
  have hranges : r.ranges t = (r.target :: r.defaults).map t.statement := by
    rw [ranges_eq, hmain, List.map_cons]
  have hapart : (r.target :: r.defaults).Pairwise t.Disjoint := by
    refine List.pairwise_cons.mpr ⟨fun n hn => ?_, hdefaults.apart⟩
    have hdisjoint := (hdefaults.list n hn).2
    rw [hlist] at hdisjoint
    exact hdisjoint.symm
  refine ⟨?_, ?_, ?_, ?_, ?_, ?_⟩
  · rw [hranges, List.pairwise_map]
    refine hapart.imp_of_mem fun {m n} hm hn hmn => ?_
    rcases hmn with hle | hle
    · exact .inl (disjoint_statements (hnodes m hm) (hnodes n hn) hle)
    · exact .inr (disjoint_statements (hnodes n hn) (hnodes m hm) hle)
  · intro n hn
    rw [hranges]
    exact ⟨_, List.mem_map_of_mem hn, covers_statement (hnodes n hn).has⟩
  · intro q hq hbelow
    refine .inl fun range hrange => ?_
    rw [hranges] at hrange
    obtain ⟨n, hn, rfl⟩ := List.mem_map.mp hrange
    have hhas := (hnodes n hn).has
    exact misses_statement hhas hq.proper (disjoint_of_isToken hq hhas (hbelow n hn))
  · rw [hkept]
    exact ⟨nofun, nofun, List.isChain_nil⟩
  · rw [hkept, List.filter_nil]
    refine (List.filter_eq_nil_iff.mpr fun e he => ?_).symm
    simpa using hchildren e (List.mem_of_mem_filter he)
  · rw [hkept]
    exact List.isChain_nil

end Removal

lemma disjoint_of_below {a b p q : Node} (h : (t.byteRange a).stop ≤ (t.byteRange b).start)
    (hp : t.Has p) (hap : a <+: p) (hq : t.Has q) (hbq : b <+: q) :
    (t.byteRange p).stop ≤ (t.byteRange q).start := by
  have hpInside := inside_of_prefix hp hap
  have hqInside := inside_of_prefix hq hbq
  omega

lemma disjoint_of_ne_siblings {a b : Node} (hlist : t.Has list) (ha : a ∈ t.children list)
    (hb : b ∈ t.children list) (hne : a ≠ b) : t.Disjoint a b := by
  have hahas := (hlist.child ha).1
  have hbhas := (hlist.child hb).1
  have hlength : a.length = b.length := by
    obtain ⟨i, -, rfl⟩ := mem_children.mp ha
    obtain ⟨j, -, rfl⟩ := mem_children.mp hb
    rw [List.length_append, List.length_append]
    rfl
  rcases nested_or_disjoint hahas hbhas with hab | hba | hdisjoint
  · exact absurd (hab.eq_of_length hlength) hne
  · exact absurd (hba.eq_of_length hlength.symm).symm hne
  · exact hdisjoint

/-- The entries that a child of a class body holds for the names. -/
def entriesOf (t : SyntaxTree) (names : List (List Char)) (child : Node) : List Node :=
  match t.kind child with
  | .memberDefaultVal | .memberHint => [child].filter (t.targets names)
  | .memberDefaultValBlock =>
    ((t.children child).filter fun a => t.kind a = .memberDefaultValBlockAssign).filter
      (t.targets names)
  | _ => []

lemma mem_entriesOf {names : List (List Char)} (hlist : t.Has list) (hc : c ∈ t.children list)
    (hn : n ∈ t.entriesOf names c) : t.Has n ∧ n ≠ [] ∧ t.kind n ≠ .comment ∧ c <+: n ∧
      t.kind c ≠ .memberVarDecl := by
  obtain ⟨hhas, hinner, -⟩ := Removal.mem_child hlist hc
  unfold entriesOf at hn
  split at hn
  next hkind =>
    rw [List.mem_singleton.mp (List.mem_of_mem_filter hn), hkind]
    exact ⟨hhas, hinner, by decide, List.prefix_rfl, by decide⟩
  next hkind =>
    rw [List.mem_singleton.mp (List.mem_of_mem_filter hn), hkind]
    exact ⟨hhas, hinner, by decide, List.prefix_rfl, by decide⟩
  next hkind =>
    obtain ⟨hmem, hassign⟩ := List.mem_filter.mp (List.mem_of_mem_filter hn)
    obtain ⟨hnhas, hninner, -⟩ := Removal.mem_child hhas hmem
    rw [decide_eq_true_iff] at hassign
    rw [hassign, hkind]
    exact ⟨hnhas, hninner, by decide, prefix_of_mem_children hmem, by decide⟩
  · cases hn

lemma pairwise_entriesOf {names : List (List Char)} (hc : t.Has c) :
    (t.entriesOf names c).Pairwise t.Disjoint := by
  unfold entriesOf
  split
  · exact (List.pairwise_singleton _ _).filter _
  · exact (List.pairwise_singleton _ _).filter _
  · exact (((pairwise_children hc).imp fun h => Or.inl h).filter _).filter _
  · exact List.Pairwise.nil

lemma mem_children_dropLast (hq : t.Has q) (hinner : q ≠ []) : q ∈ t.children q.dropLast := by
  have hparent : t.Has q.dropLast := hq.of_prefix (List.dropLast_prefix q)
  obtain ⟨b, hb⟩ := Option.isSome_iff_exists.mp hq
  have hsplit := List.dropLast_append_getLast hinner
  rw [← hsplit, RangedTree.get?_append, hparent.get?_eq, Option.bind_some] at hb
  obtain ⟨d, hd, -⟩ := Option.bind_eq_some_iff.mp hb
  exact mem_children.mpr ⟨q.getLast hinner, (List.getElem?_eq_some_iff.mp hd).1, hsplit.symm⟩

/-- The entries of a field lie apart from it and from each other. -/
lemma apart_defaultEntries {field : Node} (names : List (List Char)) (hfield : t.Has field)
    (hinner : field ≠ []) (hkind : t.kind field = .memberVarDecl) :
    (∀ n ∈ t.defaultEntries field names, t.Has n ∧ n ≠ [] ∧ t.kind n ≠ .comment ∧
        t.Disjoint n field) ∧ (t.defaultEntries field names).Pairwise t.Disjoint := by
  have hbody : t.Has field.dropLast := hfield.of_prefix (List.dropLast_prefix field)
  have hmem := mem_children_dropLast hfield hinner
  have heq : t.defaultEntries field names =
      (t.children field.dropLast).flatMap (t.entriesOf names) := by
    rw [defaultEntries, parent, if_neg hinner]
    rfl
  rw [heq]
  constructor
  · intro n hn
    obtain ⟨c, hc, hn⟩ := List.mem_flatMap.mp hn
    obtain ⟨hhas, hninner, hcode, hprefix, hother⟩ := mem_entriesOf hbody hc hn
    have hne : c ≠ field := by
      rintro rfl
      exact hother hkind
    have hinside := inside_of_prefix hhas hprefix
    refine ⟨hhas, hninner, hcode, ?_⟩
    rcases disjoint_of_ne_siblings hbody hc hmem hne with hle | hle
    · exact .inl (by omega)
    · exact .inr (by omega)
  · rw [List.pairwise_flatMap]
    refine ⟨fun c hc => pairwise_entriesOf (hbody.child hc).1, ?_⟩
    refine (pairwise_children hbody).imp_of_mem fun {a b} ha hb hle x hx y hy => ?_
    obtain ⟨hxhas, -, -, hax, -⟩ := mem_entriesOf hbody ha hx
    obtain ⟨hyhas, -, -, hby, -⟩ := mem_entriesOf hbody hb hy
    exact .inl (disjoint_of_below hle hxhas hax hyhas hby)

lemma mem_defaultEntries_of_subset {field : Node} {names names' : List (List Char)}
    (hsubset : names ⊆ names') (hn : n ∈ t.defaultEntries field names) :
    n ∈ t.defaultEntries field names' := by
  have htargets : ∀ entry, t.targets names entry = true → t.targets names' entry = true := by
    intro entry hentry
    unfold targets at hentry ⊢
    rw [Option.any_eq_true] at hentry ⊢
    obtain ⟨member, hmember, hcontains⟩ := hentry
    have hin := hsubset (List.contains_iff_mem.mp hcontains)
    exact ⟨member, hmember, List.contains_iff_mem.mpr hin⟩
  have hfilter : ∀ l : List Node,
      n ∈ l.filter (t.targets names) → n ∈ l.filter (t.targets names') :=
    fun l hl => List.mem_filter.mpr
      ⟨List.mem_of_mem_filter hl, htargets n (List.mem_filter.mp hl).2⟩
  unfold defaultEntries at hn ⊢
  cases hbody : parent field with
  | none =>
    rw [hbody] at hn
    cases hn
  | some body =>
    rw [hbody] at hn
    obtain ⟨child, hchild, hn⟩ := List.mem_flatMap.mp hn
    refine List.mem_flatMap.mpr ⟨child, hchild, ?_⟩
    split at hn
    · exact hfilter _ hn
    · exact hfilter _ hn
    · exact hfilter _ hn
    · cases hn

/-! ### The reports of a declaration -/

variable {node ident : Node} {isUnused : Node → Bool}

lemma mem_declNameIdents (h : ident ∈ t.declNameIdents node) :
    ident ∈ t.children node ∧ t.isListEntry ident = true := by
  obtain ⟨hnames, hkind⟩ := List.mem_filter.mp h
  obtain ⟨hmem, hfield⟩ := List.mem_filter.mp hnames
  refine ⟨hmem, ?_⟩
  rw [isListEntry, hkind, hfield]
  exact Bool.or_true _

omit t in
/-- One report for all names, or one for each unused name. -/
lemma eq_or_exists_of_mem_ite {all : Prop} [Decidable all] {whole d : UnusedDiagnostic}
    {single : Node → UnusedDiagnostic} {unused : List Node}
    (hd : d ∈ if all then [whole] else unused.map single) :
    d = whole ∨ ∃ ident ∈ unused, d = single ident := by
  split_ifs at hd with hall
  · exact .inl (List.mem_singleton.mp hd)
  · obtain ⟨ident, hident, rfl⟩ := List.mem_map.mp hd
    exact .inr ⟨ident, hident, rfl⟩

lemma removal_of_mem_emitParamDims {names unused : List Node} {d : UnusedDiagnostic}
    (hd : d ∈ t.emitParamDims node names unused) : d.removal = ⟨node, false, []⟩ ∨
      ∃ ident ∈ unused, d.removal = ⟨ident, false, []⟩ := by
  obtain rfl | ⟨ident, hident, rfl⟩ := eq_or_exists_of_mem_ite hd
  · exact .inl rfl
  · exact .inr ⟨ident, hident, rfl⟩

lemma removal_of_mem_emitVarDeclDims {names unused : List Node} {d : UnusedDiagnostic}
    (hd : d ∈ t.emitVarDeclDims node names unused) :
    d.removal = ⟨node, true, t.fieldDefaults node unused⟩ ∨
      ∃ ident ∈ unused, d.removal = ⟨ident, false, t.fieldDefaults node [ident]⟩ := by
  obtain rfl | ⟨ident, hident, rfl⟩ := eq_or_exists_of_mem_ite hd
  · exact .inl rfl
  · exact .inr ⟨ident, hident, rfl⟩

/-- A report removes a whole group of parameters, a whole declaration or one name. -/
lemma removal_of_mem_checkUnused {d : UnusedDiagnostic} (hd : d ∈ t.checkUnused isUnused node) :
    t.kind node = .funcParamGroup ∧ d.removal = ⟨node, false, []⟩ ∨
      (∃ unused ⊆ t.declNameIdents node,
        d.removal = ⟨node, true, t.fieldDefaults node unused⟩) ∨
      ∃ ident ∈ t.declNameIdents node,
        d.removal = ⟨ident, false, t.fieldDefaults node [ident]⟩ := by
  unfold checkUnused at hd
  dsimp only at hd
  split_ifs at hd with hannotation hempty hgroup hbodyless
  · cases hd
  · cases hd
  · cases hd
  · rcases removal_of_mem_emitParamDims hd with heq | ⟨ident, hident, heq⟩
    · exact .inl ⟨hgroup, heq⟩
    · refine .inr (.inr ⟨ident, List.mem_of_mem_filter hident, ?_⟩)
      rw [heq, fieldDefaults, if_neg (by simp [hgroup])]
  · rcases removal_of_mem_emitVarDeclDims hd with heq | ⟨ident, hident, heq⟩
    · exact .inr (.inl ⟨_, List.filter_subset_self _, heq⟩)
    · exact .inr (.inr ⟨ident, List.mem_of_mem_filter hident, heq⟩)

/-- What a report of a declaration removes beside it lies apart from it. -/
lemma ErrorFreeDecl.defaultsApart (h : t.ErrorFreeDecl node) {r : Removal} {unused : List Node}
    (hunused : unused ⊆ t.declNameIdents node) (hlist : r.list = node)
    (hdefaults : r.defaults = t.fieldDefaults node unused) : r.DefaultsApart t := by
  rw [fieldDefaults] at hdefaults
  split_ifs at hdefaults with hkind
  · obtain ⟨hnodes, hpairwise⟩ :=
      apart_defaultEntries (unused.map t.text) h.proper.has h.proper.inner hkind
    rw [← hdefaults] at hpairwise
    refine ⟨fun n hn => ?_, fun n hn => ?_, hpairwise⟩
    · rw [hdefaults] at hn
      exact h.entries hkind n (mem_defaultEntries_of_subset (List.map_subset _ hunused) hn)
    · rw [hdefaults] at hn
      obtain ⟨-, -, -, hdisjoint⟩ := hnodes n hn
      rw [hlist]
      exact ⟨h.proper, hdisjoint⟩
  · exact .of_nil hdefaults

lemma exists_inList {defaults : List Node} (hmem : c ∈ t.children list)
    (hentry : t.isListEntry c = true)
    (hdefaults : Removal.DefaultsApart t ⟨c, false, defaults⟩) :
    Removal.list ⟨c, false, defaults⟩ = list ∧
      ∃ A B, Removal.InList t ⟨c, false, defaults⟩ A B := by
  have hlist : Removal.list ⟨c, false, defaults⟩ = list := by
    obtain ⟨i, -, rfl⟩ := mem_children.mp hmem
    exact List.dropLast_concat
  obtain ⟨A, B, hsplit⟩ := List.append_of_mem hmem
  exact ⟨hlist, A, B, rfl, hlist.symm ▸ hsplit, hentry, hdefaults⟩

/-- The edit of a report is exact when its target is next to the comma that goes with it. -/
theorem exact_iff_detaches (hdecl : t.ErrorFreeDecl node) :
    ∀ d ∈ t.checkUnused isUnused node, d.removal.Exact t ↔ d.removal.Detaches t := by
  intro d hd
  rcases removal_of_mem_checkUnused hd with ⟨hgroup, heq⟩ | ⟨unused, hunused, heq⟩ |
      ⟨ident, hident, heq⟩
  · rw [heq]
    have hmem := mem_children_dropLast hdecl.proper.has hdecl.proper.inner
    have hentry : t.isListEntry node = true := by
      rw [isListEntry, hgroup]
      rfl
    obtain ⟨hlist, A, B, hin⟩ := exists_inList hmem hentry (.of_nil rfl)
    exact hin.exact_iff (hlist.symm ▸ hdecl.params hgroup)
  · rw [heq]
    exact iff_of_true (Removal.exact_of_whole rfl hdecl.proper
      (hdecl.defaultsApart hunused rfl rfl)) (.inl rfl)
  · rw [heq]
    obtain ⟨hmem, hentry⟩ := mem_declNameIdents hident
    have hlist : Removal.list ⟨ident, false, t.fieldDefaults node [ident]⟩ = node := by
      obtain ⟨i, -, rfl⟩ := mem_children.mp hmem
      exact List.dropLast_concat
    have hsubset : [ident] ⊆ t.declNameIdents node :=
      List.cons_subset.mpr ⟨hident, List.nil_subset _⟩
    obtain ⟨-, A, B, hin⟩ :=
      exists_inList hmem hentry (hdecl.defaultsApart hsubset hlist rfl)
    exact hin.exact_iff (hlist.symm ▸ hdecl.names)

/-- `function f(){var a/**/,b,x:int;x=1;}` -/
def commentedNames : SyntaxTree where
  source :=
    ['f', 'u', 'n', 'c', 't', 'i', 'o', 'n', ' ', 'f', '(', ')', '{', 'v', 'a', 'r', ' ', 'a',
      '/', '*', '*', '/', ',', 'b', ',', 'x', ':', 'i', 'n', 't', ';', 'x', '=', '1', ';', '}']
  root :=
    .node ⟨.script, true, none⟩ 0 36 [
      .node ⟨.funcDecl, true, none⟩ 0 36 [
        .node ⟨.other, false, none⟩ 0 8 [],
        .node ⟨.ident, true, some .name⟩ 9 10 [],
        .node ⟨.other, true, none⟩ 10 12 [
          .node ⟨.other, false, none⟩ 10 11 [],
          .node ⟨.closeParen, false, none⟩ 11 12 []],
        .node ⟨.funcBlock, true, some .definition⟩ 12 36 [
          .node ⟨.openBrace, false, none⟩ 12 13 [],
          .node ⟨.localVarDeclStmt, true, none⟩ 13 31 [
            .node ⟨.other, false, none⟩ 13 16 [],
            .node ⟨.ident, true, some .names⟩ 17 18 [],
            .node ⟨.comment, true, none⟩ 18 22 [],
            .node ⟨.comma, false, some .names⟩ 22 23 [],
            .node ⟨.ident, true, some .names⟩ 23 24 [],
            .node ⟨.comma, false, some .names⟩ 24 25 [],
            .node ⟨.ident, true, some .names⟩ 25 26 [],
            .node ⟨.other, false, none⟩ 26 27 [],
            .node ⟨.typeAnnot, true, some .varType⟩ 27 30 [
              .node ⟨.ident, true, some .typeName⟩ 27 30 []],
            .node ⟨.other, false, none⟩ 30 31 []],
          .node ⟨.exprStmt, true, none⟩ 31 35 [
            .node ⟨.assignOpExpr, true, none⟩ 31 34 [
              .node ⟨.ident, true, some .left⟩ 31 32 [],
              .node ⟨.assignOpDirect, true, some .op⟩ 32 33 [],
              .node ⟨.literalInt, true, some .right⟩ 33 34 []],
            .node ⟨.other, false, none⟩ 34 35 []],
          .node ⟨.other, false, none⟩ 35 36 []]]]
  valid := by decide +kernel
  rootKind := by decide

lemma errorFreeDecl_commentedNames : commentedNames.ErrorFreeDecl [0, 3, 1] where
  proper := ⟨rfl, by decide, by decide, by decide, by decide +kernel⟩
  names := ⟨rfl, by decide, ⟨by decide, by decide, by decide⟩, by decide, by decide⟩
  params := fun h => absurd h (by decide)
  entries := fun h => absurd h (by decide)

/-- In `var a/**/,b,x:int;` the name `b` goes with its comma. -/
theorem exact_iff_detaches_commentedNames :
    ∃ d ∈ commentedNames.checkUnused (fun n => n = [0, 3, 1, 4]) [0, 3, 1],
      d.removal.Exact commentedNames := by
  obtain ⟨d, hd, hremoval⟩ : ∃ d ∈ commentedNames.checkUnused (fun n => n = [0, 3, 1, 4])
      [0, 3, 1], d.removal = ⟨[0, 3, 1, 4], false, []⟩ := ⟨_, List.mem_cons_self, rfl⟩
  refine ⟨d, hd, (exact_iff_detaches errorFreeDecl_commentedNames d hd).mpr ?_⟩
  rw [hremoval]
  exact .inr (.inr (.inl ⟨[0, 3, 1, 5], rfl, rfl⟩))

/-- The name `a` leaves its comma behind: `var /**/,b,x:int;`. -/
theorem not_exact_commentedNames : ¬∀ (t : SyntaxTree) (isUnused : Node → Bool) (node : Node),
    t.ErrorFreeDecl node → ∀ d ∈ t.checkUnused isUnused node, d.removal.Exact t := by
  intro h
  have hexact := h commentedNames (fun n => n = [0, 3, 1, 1]) [0, 3, 1]
    errorFreeDecl_commentedNames _ List.mem_cons_self
  have hleft := hexact.separated.head .separator
  exact ListToken.noConfusion (hleft rfl)

end SyntaxTree

end WitcherScriptLanguage
