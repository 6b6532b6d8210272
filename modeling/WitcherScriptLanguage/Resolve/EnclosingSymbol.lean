import Mathlib.Data.List.TakeWhile
import WitcherScriptLanguage.Resolve.SymbolTable
import WitcherScriptLanguage.Symbols.TableOrder

/-!
# The symbol around an offset

`enclosing_symbol_at` of `symbols/types.rs` finds the last symbol that starts at or in front of an
offset and climbs its containers. On the table of a syntax tree this meets every symbol whose range
contains the offset. The end of a range counts as inside, so a symbol that ends at the offset
hides those around it.
-/

namespace WitcherScriptLanguage

open Library

/-- The tree of a parsed document, whose nodes follow each other. -/
structure OrderedTree extends NestedTree where
  ordered : root.Ordered

/-- The half-open range contains the offset. -/
def ByteRange.Contains (range : ByteRange) (offset : Nat) : Prop :=
  range.start ≤ offset ∧ offset < range.stop

instance (range : ByteRange) (offset : Nat) : Decidable (range.Contains offset) :=
  inferInstanceAs (Decidable (_ ∧ _))

namespace DocumentSymbols

variable {symbols : List Symbol}

lemma byStartByte_indexSymbol (t : DocumentSymbols) (sym : Symbol) :
    (t.indexSymbol sym).byStartByte = t.byStartByte := by
  unfold indexSymbol
  cases sym.container with
  | none =>
    dsimp only
    split_ifs <;> rfl
  | some container =>
    dsimp only
    split_ifs <;> rfl

/-- The symbols are already in the order of their starts. -/
lemma byStartByte_buildIndexes (horder : InOrder symbols) :
    (buildIndexes symbols).byStartByte = (List.range symbols.length).map SymbolId.mk := by
  have hkept (l : List Symbol) (t : DocumentSymbols) :
      (l.foldl indexSymbol t).byStartByte = t.byStartByte := by
    induction l generalizing t with
    | nil => rfl
    | cons sym l ih => rw [List.foldl_cons, ih, byStartByte_indexSymbol]
  have hsorted : sortIdsBy symbols (·.byteRange.start)
      ((List.range symbols.length).map SymbolId.mk) =
        (List.range symbols.length).map SymbolId.mk := by
    refine List.Pairwise.insertionSort_eq ?_
    rw [List.pairwise_map]
    refine List.pairwise_lt_range.imp_of_mem fun {i j} hi hj hij => ?_
    have hi' := List.mem_range.mp hi
    have hj' := List.mem_range.mp hj
    have hstart := (horder i j _ _ hij (List.getElem?_eq_getElem hi')
      (List.getElem?_eq_getElem hj')).start_le
    simpa [List.getElem?_eq_getElem hi', List.getElem?_eq_getElem hj'] using hstart
  exact (hkept symbols _).trans hsorted

lemma symbols_buildIndexes (h : Positioned symbols) : (buildIndexes symbols).symbols = symbols :=
  (tablesInRange_buildIndexes h).1.symbols_eq

/-- The sorted ids stand for the whole table. -/
lemma mapM_byStartByte (hpositioned : Positioned symbols) (horder : InOrder symbols) :
    (buildIndexes symbols).byStartByte.mapM (buildIndexes symbols).symbolAt = some symbols := by
  have hsymbols := symbols_buildIndexes hpositioned
  have hinRange : InRange (buildIndexes symbols).symbols (buildIndexes symbols).byStartByte := by
    rw [hsymbols]
    exact (tablesInRange_buildIndexes hpositioned).1.byStartByte
  obtain ⟨found, hfound, -, hget⟩ := exists_mapM_symbolAt hinRange
  rw [hfound, Option.some.injEq]
  refine List.ext_getElem? fun i => ?_
  rw [hget i, byStartByte_buildIndexes horder]
  by_cases hi : i < symbols.length
  · simp [symbolAt, hsymbols, hi]
  · have hle := Nat.le_of_not_lt hi
    simp [hle]

section Climb

variable {t : DocumentSymbols} {accept : Symbol → Bool}

/-- The symbol of an id, and those around it. -/
def AtOrAround (symbols : List Symbol) (id i : Nat) : Prop := i = id ∨ Encloses symbols i id

/-- Around a symbol are its container and what is around that. -/
lemma atOrAround_iff {id i : Nat} {s : Symbol} (hs : symbols[id]? = some s) :
    AtOrAround symbols id i ↔
      i = id ∨ ∃ container, s.container = some container ∧ AtOrAround symbols container.val i :=
  or_congr_right ⟨fun h => h.onPath hs, fun h => OnPath.encloses h hs⟩

lemma AtOrAround.inside (h : WellFormedTable symbols) {id i : Nat} (hpath : AtOrAround symbols id i)
    {s around : Symbol} (hs : symbols[id]? = some s) (haround : symbols[i]? = some around) :
    s.byteRange.Inside around.byteRange := by
  obtain rfl | hpath := hpath
  · cases hs.symm.trans haround
    exact ⟨Nat.le_refl _, Nat.le_refl _⟩
  · induction hpath generalizing s with
    | @direct j s' hs' hcontainer =>
      cases hs'.symm.trans hs
      obtain ⟨-, t, ht, hinside⟩ := h.containers _ (List.mem_of_getElem? hs) _ hcontainer
      cases ht.symm.trans haround
      exact hinside
    | @step j k s' hs' hcontainer hrest ih =>
      cases hs'.symm.trans hs
      obtain ⟨-, t, ht, hinside⟩ := h.containers _ (List.mem_of_getElem? hs) _ hcontainer
      exact hinside.trans (ih ht)

/-- A climb ends at the first accepted symbol at or around its start. -/
lemma climb_spec (h : WellFormedTable t.symbols) {rounds : Nat} {id : SymbolId}
    (hid : id.val < t.symbols.length) (hrounds : id.val < rounds) :
    ∃ found, t.climb accept rounds id = some found ∧
      (found = none → ∀ i s, AtOrAround t.symbols id.val i → t.symbols[i]? = some s →
        accept s = false) ∧
      ∀ s, found = some s → accept s = true ∧ ∃ k, t.symbols[k]? = some s ∧
        AtOrAround t.symbols id.val k ∧ ∀ i x, AtOrAround t.symbols id.val i →
          t.symbols[i]? = some x → accept x = true → AtOrAround t.symbols k i := by
  induction rounds generalizing id with
  | zero => omega
  | succ rounds ih =>
    have hself : t.symbols[id.val]? = some t.symbols[id.val] := List.getElem?_eq_getElem hid
    rw [climb, symbolAt, hself, Option.bind_eq_bind, Option.bind_some]
    by_cases haccept : accept t.symbols[id.val] = true
    · rw [if_pos haccept]
      refine ⟨_, rfl, fun hnone => (by cases hnone), fun s hs => ?_⟩
      cases hs
      exact ⟨haccept, id.val, hself, .inl rfl, fun i x hpath _ _ => hpath⟩
    · rw [if_neg haccept]
      have hrefused : accept t.symbols[id.val] = false := by
        rwa [Bool.not_eq_true] at haccept
      cases hcontainer : t.symbols[id.val].container with
      | none =>
        refine ⟨none, rfl, fun _ i s hpath hs => ?_, fun s hs => (by cases hs)⟩
        obtain rfl | ⟨c, hc, -⟩ := (atOrAround_iff hself).mp hpath
        · cases hself.symm.trans hs
          exact hrefused
        · rw [hcontainer] at hc
          cases hc
      | some container =>
        have hpositioned := h.positioned id.val _ hself
        obtain ⟨hlt, -⟩ := h.containers _ (List.getElem_mem hid) container hcontainer
        rw [hpositioned] at hlt
        have hlt' : container.val < id.val := hlt
        -- What is around the symbol is at or around its container.
        have hout {i : Nat} (hpath : AtOrAround t.symbols id.val i) {x : Symbol}
            (hx : t.symbols[i]? = some x) : accept x = false ∨
              AtOrAround t.symbols container.val i := by
          obtain rfl | ⟨c, hc, hpath⟩ := (atOrAround_iff hself).mp hpath
          · cases hself.symm.trans hx
            exact .inl hrefused
          · rw [hcontainer] at hc
            cases hc
            exact .inr hpath
        obtain ⟨found, hfound, hnone, hsome⟩ := ih (hlt'.trans hid) (by omega)
        refine ⟨found, hfound, fun hf i s hpath hs => ?_, fun s hs => ?_⟩
        · exact (hout hpath hs).elim (fun h => h) fun hpath => hnone hf i s hpath hs
        · obtain ⟨haccepted, k, hk, hpath, hfirst⟩ := hsome s hs
          refine ⟨haccepted, k, hk, (atOrAround_iff hself).mpr (.inr ⟨container, hcontainer, hpath⟩),
            fun i x hpathx hx hacceptx => ?_⟩
          obtain hrefusedx | hpathx := hout hpathx hx
          · rw [hacceptx] at hrefusedx
            cases hrefusedx
          · exact hfirst i x hpathx hx hacceptx

end Climb

/-- The last symbol that starts at or in front of the offset: every symbol that contains the offset
is at or around it, or is another name of its declaration. -/
lemma atOrAround_of_contains (horder : InOrder symbols) {last i offset : Nat} {s x : Symbol}
    (hs : symbols[last]? = some s) (hstart : s.byteRange.start ≤ offset)
    (hlast : ∀ j t, last < j → symbols[j]? = some t → offset < t.byteRange.start)
    (hx : symbols[i]? = some x) (hcontains : x.byteRange.Contains offset) :
    AtOrAround symbols last i ∨ SameDeclaration x s := by
  obtain ⟨hxstart, hxstop⟩ := hcontains
  rcases Nat.lt_trichotomy i last with hlt | rfl | hgt
  · obtain hapart | hencloses | hsame := (horder i last x s hlt hx hs).apart
    · omega
    · exact .inl (.inr hencloses)
    · exact .inr hsame
  · exact .inl (.inl rfl)
  · have hbehind := hlast i x hgt hx
    omega

/-- The symbols that start at or in front of an offset come first. -/
lemma lt_start_of_takeWhile {l : List Symbol} {offset : Nat}
    (hsorted : l.Pairwise fun a b => a.byteRange.start ≤ b.byteRange.start) {j : Nat} {t : Symbol}
    (ht : l[j]? = some t)
    (hj : (l.takeWhile fun s => s.byteRange.start ≤ offset).length ≤ j) :
    offset < t.byteRange.start := by
  induction l generalizing j with
  | nil => simp at ht
  | cons a l ih =>
    obtain ⟨hfirst, hrest⟩ := List.pairwise_cons.mp hsorted
    by_cases ha : a.byteRange.start ≤ offset
    · rw [List.takeWhile_cons_of_pos (by simpa using ha), List.length_cons] at hj
      cases j with
      | zero => omega
      | succ j => exact ih hrest ht (by omega)
    · cases j with
      | zero =>
        cases ht
        omega
      | succ j =>
        have hle := hfirst t (List.mem_of_getElem? ht)
        omega

/-- All symbols start behind the offset, or the last of those that do not is the last of the front
that a binary search finds. -/
lemma exists_last_started {l : List Symbol} (offset : Nat)
    (hsorted : l.Pairwise fun a b => a.byteRange.start ≤ b.byteRange.start) :
    ((l.takeWhile fun s => s.byteRange.start ≤ offset).length = 0 ∧
        ∀ s ∈ l, offset < s.byteRange.start) ∨
      ∃ last s, (l.takeWhile fun s => s.byteRange.start ≤ offset).length = last + 1 ∧
        l[last]? = some s ∧ s.byteRange.start ≤ offset ∧
        ∀ j t, last < j → l[j]? = some t → offset < t.byteRange.start := by
  cases hlength : (l.takeWhile fun s => s.byteRange.start ≤ offset).length with
  | zero =>
    refine .inl ⟨rfl, fun s hs => ?_⟩
    obtain ⟨j, hj⟩ := List.mem_iff_getElem?.mp hs
    exact lt_start_of_takeWhile hsorted hj (by omega)
  | succ last =>
    obtain ⟨rest, hrest⟩ := List.takeWhile_prefix
      (fun s : Symbol => decide (s.byteRange.start ≤ offset)) (l := l)
    have hlt : last < (l.takeWhile fun s => s.byteRange.start ≤ offset).length := by omega
    refine .inr ⟨last, (l.takeWhile fun s => s.byteRange.start ≤ offset)[last], rfl, ?_, ?_,
      fun j t hj ht => lt_start_of_takeWhile hsorted ht (by omega)⟩
    · conv_lhs => rw [← hrest]
      rw [List.getElem?_append_left hlt, List.getElem?_eq_getElem hlt]
    · simpa using List.mem_takeWhile_imp (List.getElem_mem hlt)

/-- A search comes to the last symbol in front of the offset and climbs. -/
lemma enclosingSymbolAt_eq (htable : WellFormedTable symbols) (horder : InOrder symbols)
    (offset : Nat) (kinds : List SymbolKind) :
    ((buildIndexes symbols).enclosingSymbolAt offset kinds = some none ∧
        ∀ s ∈ symbols, offset < s.byteRange.start) ∨
      ∃ last s, symbols[last]? = some s ∧ s.byteRange.start ≤ offset ∧
        (∀ j t, last < j → symbols[j]? = some t → offset < t.byteRange.start) ∧
        (buildIndexes symbols).enclosingSymbolAt offset kinds =
          (buildIndexes symbols).climb (fun s => offset ≤ s.byteRange.stop && kinds.contains s.kind)
            (symbols.length + 1) ⟨last⟩ := by
  have hsymbols := symbols_buildIndexes htable.positioned
  have hids := byStartByte_buildIndexes horder
  have hsorted : symbols.Pairwise fun a b => a.byteRange.start ≤ b.byteRange.start := by
    rw [List.pairwise_iff_getElem]
    intro i j hi hj hij
    exact (horder i j _ _ hij (List.getElem?_eq_getElem hi) (List.getElem?_eq_getElem hj)).start_le
  rw [enclosingSymbolAt, mapM_byStartByte htable.positioned horder, Option.bind_eq_bind,
    Option.bind_some, hids, hsymbols]
  dsimp only
  obtain ⟨hupper, hbehind⟩ | ⟨last, s, hupper, hs, hstart, hlast⟩ :=
    exists_last_started offset hsorted
  · rw [if_pos hupper]
    exact .inl ⟨rfl, hbehind⟩
  · rw [if_neg (by omega), hupper]
    refine .inr ⟨last, s, hs, hstart, hlast, ?_⟩
    simp [(List.getElem?_eq_some_iff.mp hs).1]

/-- A symbol that contains the offset is accepted on the climb, or the last name of its declaration
is. -/
lemma exists_accepted_of_contains (horder : InOrder symbols) {last offset : Nat} {s x : Symbol}
    (hs : symbols[last]? = some s) (hstart : s.byteRange.start ≤ offset)
    (hlast : ∀ j t, last < j → symbols[j]? = some t → offset < t.byteRange.start)
    {kinds : List SymbolKind} (hx : x ∈ symbols) (hkind : x.kind ∈ kinds)
    (hcontains : x.byteRange.Contains offset) :
    ∃ i y, AtOrAround symbols last i ∧ symbols[i]? = some y ∧ y.byteRange = x.byteRange ∧
      (decide (offset ≤ y.byteRange.stop) && kinds.contains y.kind) = true := by
  have haccept {y : Symbol} (hrange : x.byteRange = y.byteRange) (hsame : x.kind = y.kind) :
      (decide (offset ≤ y.byteRange.stop) && kinds.contains y.kind) = true := by
    rw [← hrange, ← hsame]
    simpa [hkind] using hcontains.2.le
  obtain ⟨i, hi⟩ := List.mem_iff_getElem?.mp hx
  obtain hpath | ⟨hrange, -, hsame⟩ := atOrAround_of_contains horder hs hstart hlast hi hcontains
  · exact ⟨i, x, hpath, hi, rfl, haccept rfl rfl⟩
  · exact ⟨last, s, .inl rfl, hs, hrange.symm, haccept hrange hsame⟩

end DocumentSymbols

open DocumentSymbols in
/-- On the table of a syntax tree, the search for the symbol around an offset finds the innermost
symbol of the kinds whose range contains the offset, or one inside all of these that ends exactly
at the offset. -/
theorem enclosingSymbolAt_innermost (tree : OrderedTree) (offset : Nat) (kinds : List SymbolKind) :
    ∃ found, (buildIndexes (extractSymbols tree.root)).enclosingSymbolAt offset kinds = some found ∧
      (found = none → ∀ x ∈ extractSymbols tree.root, x.kind ∈ kinds →
        ¬x.byteRange.Contains offset) ∧
      ∀ s, found = some s → s ∈ extractSymbols tree.root ∧ s.kind ∈ kinds ∧
        (s.byteRange.Contains offset ∨ s.byteRange.stop = offset) ∧
        ∀ x ∈ extractSymbols tree.root, x.kind ∈ kinds → x.byteRange.Contains offset →
          s.byteRange.Inside x.byteRange := by
  have htable := wellFormedTable_extractSymbols tree.nested
  have horder := inOrder_extractSymbols tree.ordered tree.nested
  generalize extractSymbols tree.root = symbols at htable horder
  have hsymbols := symbols_buildIndexes htable.positioned
  obtain ⟨hnone, hbehind⟩ | ⟨last, s, hs, hstart, hlast, hclimb⟩ :=
    enclosingSymbolAt_eq htable horder offset kinds
  · refine ⟨none, hnone, fun _ x hx _ hcontains => ?_, fun s hs => (by cases hs)⟩
    have hlt := hbehind x hx
    exact absurd hcontains.1 (by omega)
  · have hlength := (List.getElem?_eq_some_iff.mp hs).1
    obtain ⟨found, hfound, hnone, hsome⟩ := @climb_spec (buildIndexes symbols)
      (fun s => decide (offset ≤ s.byteRange.stop) && kinds.contains s.kind)
      (by rwa [hsymbols]) (symbols.length + 1) ⟨last⟩ (by rwa [hsymbols])
      (Nat.lt_succ_of_lt hlength)
    rw [hsymbols] at hnone hsome
    refine ⟨found, hclimb.trans hfound, fun hf x hx hkind hcontains => ?_, fun r hr => ?_⟩
    · obtain ⟨i, y, hpath, hy, -, haccept⟩ :=
        exists_accepted_of_contains horder hs hstart hlast hx hkind hcontains
      have hrefused := hnone hf i y hpath hy
      exact absurd (haccept.symm.trans hrefused) (by decide)
    · obtain ⟨haccept, k, hk, hpath, hfirst⟩ := hsome r hr
      obtain ⟨hstop, hkind⟩ := Bool.and_eq_true_iff.mp haccept
      have hstop' : offset ≤ r.byteRange.stop := of_decide_eq_true hstop
      have hrstart := (hpath.inside htable hs hk).1
      refine ⟨List.mem_of_getElem? hk, by simpa using hkind, ?_, fun x hx hxkind hcontains => ?_⟩
      · obtain hlt | heq := Nat.lt_or_eq_of_le hstop'
        · exact .inl ⟨hrstart.trans hstart, hlt⟩
        · exact .inr heq.symm
      · obtain ⟨i, y, hpathy, hy, hrange, hyaccept⟩ :=
          exists_accepted_of_contains horder hs hstart hlast hx hxkind hcontains
        rw [← hrange]
        exact (hfirst i y hpathy hy hyaccept).inside htable hk hy

lemma SyntaxNode.Nested.leaf {node : SyntaxNode} (h : node.children = []) : node.Nested :=
  .mk (by simp [h]) (by simp [h])

lemma SyntaxNode.Ordered.leaf {node : SyntaxNode} (h : node.children = [])
    (hrange : node.range.start ≤ node.range.stop) : node.Ordered :=
  .mk hrange (by simp [h]) (by simp [h]) (by simp [h])

/-- A node of an ASCII text of one line. -/
def lineNode (kind : NodeKind) (text : String) (start stop : Nat) (children : List SyntaxNode) :
    SyntaxNode :=
  .mk kind true none text ⟨start, stop⟩ (ByteRange.inFirstLine ⟨start, stop⟩) children

def methodNode : SyntaxNode :=
  lineNode .funcDecl "function f() {}" 10 25 [lineNode .ident "f" 19 20 [],
    lineNode .funcParams "()" 20 22 [], lineNode .funcBlock "{}" 23 25 []]

def classNode : SyntaxNode :=
  lineNode .classDecl "class C { function f() {} }" 0 27 [lineNode .ident "C" 6 7 [], methodNode]

lemma nested_classNode : classNode.Nested := by
  have hmethod : methodNode.Nested :=
    .mk (by decide) (List.forall_mem_cons.mpr ⟨.leaf rfl, List.forall_mem_cons.mpr
      ⟨.leaf rfl, List.forall_mem_singleton.mpr (.leaf rfl)⟩⟩)
  exact .mk (by decide)
    (List.forall_mem_cons.mpr ⟨.leaf rfl, List.forall_mem_singleton.mpr hmethod⟩)

lemma ordered_classNode : classNode.Ordered := by
  have hparams : ∀ params, methodNode.firstChildKind .funcParams = some params →
      ∀ block ∈ methodNode.children, block.kind = .funcBlock →
        params.range.stop ≤ block.range.start := by
    intro params h
    have hsome : some (lineNode .funcParams "()" 20 22 []) = some params := h
    cases hsome
    decide
  have hmethod : methodNode.Ordered :=
    .mk (by decide) (by decide) (fun _ => hparams) (List.forall_mem_cons.mpr ⟨.leaf rfl (by decide),
      List.forall_mem_cons.mpr ⟨.leaf rfl (by decide),
        List.forall_mem_singleton.mpr (.leaf rfl (by decide))⟩⟩)
  exact .mk (by decide) (by decide) (fun _ params h => by cases h)
    (List.forall_mem_cons.mpr ⟨.leaf rfl (by decide), List.forall_mem_singleton.mpr hmethod⟩)

def classWithMethod : OrderedTree where
  root := lineNode .other "class C { function f() {} }" 0 27 [classNode]
  nested := .mk (by decide) (List.forall_mem_singleton.mpr nested_classNode)
  ordered := .mk (by decide) (by decide) (fun _ params h => by cases h)
    (List.forall_mem_singleton.mpr ordered_classNode)

/-- The offset behind the method is still in the class, but the method is found. -/
theorem not_contains_enclosingSymbolAt_classWithMethod :
    (∃ x ∈ extractSymbols classWithMethod.root, x.kind ∈ [SymbolKind.class, .method] ∧
        x.byteRange.Contains 25) ∧
      ∃ s, (DocumentSymbols.buildIndexes (extractSymbols classWithMethod.root)).enclosingSymbolAt 25
          [.class, .method] = some (some s) ∧ ¬s.byteRange.Contains 25 := by
  refine ⟨by decide +kernel, ?_⟩
  have hfound : ((DocumentSymbols.buildIndexes
      (extractSymbols classWithMethod.root)).enclosingSymbolAt 25 [.class, .method]).map
        (Option.map fun s => s.byteRange) = some (some ⟨10, 25⟩) := by decide +kernel
  simp only [Option.map_eq_some_iff] at hfound
  obtain ⟨found, hfound, s, rfl, hrange⟩ := hfound
  refine ⟨s, hfound, ?_⟩
  rw [hrange]
  decide

end WitcherScriptLanguage
