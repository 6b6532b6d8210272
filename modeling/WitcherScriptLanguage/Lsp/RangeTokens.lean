import WitcherScriptLanguage.Lsp.TokenOrder

/-!
# Semantic tokens of a range

The tokens of a range are those of the whole document in it, for every range, exactly when the
identifiers of one cache key have one class. Otherwise the first of them that is scanned decides
about the others, and which one is the first depends on the range.
-/

namespace WitcherScriptLanguage

open Library

namespace TreeDocument

variable {r : Resolver} {t : TreeDocument}

/-- Both ends of the range are accepted positions. -/
structure FitsText (t : TreeDocument) (range : SourceRange) : Prop where
  start : ((LineIndex.new t.document.source).positionToByte t.document.source range.start).isSome
  stop : ((LineIndex.new t.document.source).positionToByte t.document.source range.stop).isSome

/-- The tokens of every range are the tokens of the whole document whose nodes overlap it. -/
def RangesRestrict (r : Resolver) (t : TreeDocument) : Prop :=
  ∀ range, t.FitsText range → ∀ shouldContinue shouldContinue' tokens all,
    t.collectSemanticTokensInRange r range shouldContinue = some tokens →
      t.collectSemanticTokens r shouldContinue' = some all →
        tokens = all.filter fun token => t.intersects (t.bytesOfRange range) token.1

/-- Of the identifiers for which the cache is asked, those with one name in one type have one
class. -/
def OneClassPerKey (r : Resolver) (t : TreeDocument) : Prop :=
  ∀ p ∈ t.reached, ∀ q ∈ t.reached, t.usesCache r p = true → t.usesCache r q = true →
    (t.byteRange p).start < (t.byteRange p).stop → t.cacheKey p = t.cacheKey q →
      t.resolvedClass r p = t.resolvedClass r q

lemma kind_of_usesCache {p : Position} (h : t.usesCache r p = true) : t.kind p = .ident := by
  rw [usesCache, Bool.and_eq_true, decide_eq_true_iff] at h
  exact h.1

/-- The text of a node between what is in front of it and what is behind it. -/
lemma exists_text {p : Position} {n : TokenNode} (hn : t.root.get? p = some n) :
    ∃ before word after, t.document.source.toList = before ++ (word ++ after) ∧
      utf8Length before = n.start ∧ utf8Length (before ++ word) = n.stop ∧
        t.text p = String.ofList word := by
  have hvalid := t.valid p n hn
  obtain ⟨before, rest, hsource, hstart⟩ := hvalid.start_boundary
  obtain ⟨upto, after, hsource', hstop⟩ := hvalid.stop_boundary
  have hle : utf8Length before ≤ utf8Length upto := by
    rw [hstart, hstop]
    exact hvalid.ordered.start_le_stop
  obtain ⟨word, rfl⟩ := exists_append_of_utf8Length_le (hsource.symm.trans hsource') hle
  rw [List.append_assoc] at hsource'
  refine ⟨before, word, after, hsource', hstart, hstop, ?_⟩
  rw [text, get_of_eq hn, ← hstart, ← hstop, hsource', sliceBytes_length, Option.getD_some]

lemma utf8Length_text {p : Position} {n : TokenNode} (hn : t.root.get? p = some n) :
    n.start + utf8Length (t.text p).toList = n.stop := by
  obtain ⟨before, word, after, -, hstart, hstop, htext⟩ := exists_text hn
  rw [utf8Length_append] at hstop
  rw [htext, String.toList_ofList]
  omega

/-- An identifier of some width is a token whatever its class is. -/
lemma rawToken_of_ident {p : Position} {n : TokenNode} (hn : t.root.get? p = some n)
    (hident : t.kind p = .ident) (hwidth : n.start < n.stop) :
    ∃ line start length, ∀ c : TokenClass, t.rawToken p c = some ⟨line, start, length, c.1, c.2⟩ := by
  obtain ⟨before, word, after, hsource, hstart, hstop, -⟩ := exists_text hn
  rw [kind, get_of_eq hn] at hident
  have hslice : sliceBytes t.document.source.toList n.start n.stop = some word := by
    rw [← hstart, ← hstop, hsource, sliceBytes_length]
  have hword := ((t.valid p n hn).ident hident).2 word hslice
  obtain ⟨line, units, hfrom, hto⟩ :=
    LineIndex.byteToPosition_append_word t.addressable hsource hword
  have hunits : 0 < utf16Units word := by
    apply Nat.pos_of_ne_zero
    intro hzero
    rw [eq_nil_of_utf16Units hzero, List.append_nil] at hstop
    omega
  refine ⟨line, units, utf16Units word, fun c => ?_⟩
  rw [rawToken, get_of_eq hn, ← hstart, ← hstop]
  simp only [hfrom, hto, Option.bind_eq_bind, Option.bind_some]
  simp [hunits]

/-- A node without width is no token. -/
lemma rawToken_of_empty {p : Position} (h : (t.get p).start = (t.get p).stop) (c : TokenClass) :
    t.rawToken p c = none := by
  cases htoken : t.rawToken p c with
  | none => rfl
  | some token =>
    obtain ⟨start, stop, hstart, hstop, -, hwidth, -⟩ := rawToken_eq_some htoken
    rw [h, hstop, Option.some.injEq] at hstart
    rw [hstart] at hwidth
    exact absurd hwidth (Nat.lt_irrefl _)

lemma mem_tokensAmong {l : List Position} {p : Position} {token : RawToken} :
    (p, token) ∈ t.tokensAmong r l ↔
      p ∈ l ∧ ∃ c, t.classAmong r l p = some c ∧ t.rawToken p c = some token := by
  rw [tokensAmong, List.mem_filterMap]
  constructor
  · rintro ⟨q, hq, htoken⟩
    obtain ⟨hfst, c, hclass, hraw⟩ := tokenOf_eq_some htoken
    have hpq : p = q := hfst
    subst hpq
    exact ⟨hq, c, hclass, hraw⟩
  · rintro ⟨hp, c, hclass, hraw⟩
    refine ⟨p, hp, ?_⟩
    rw [tokenOf, hclass, Option.bind_some, hraw, Option.map_some]

lemma filter_filterMap_tokenOf (keeps : Position → Bool) (f : Position → Option TokenClass)
    (l : List Position) :
    (l.filterMap fun p => t.tokenOf p (f p)).filter (fun token => keeps token.1) =
      (l.filter keeps).filterMap fun p => t.tokenOf p (f p) := by
  induction l with
  | nil => rfl
  | cons p l ih =>
    rw [List.filterMap_cons, List.filter_cons]
    cases htoken : t.tokenOf p (f p) with
    | none =>
      simp only [ih]
      split_ifs
      · rw [List.filterMap_cons, htoken]
      · rfl
    | some token =>
      have hfst := (tokenOf_eq_some htoken).1
      simp only [List.filter_cons, hfst, ih]
      split_ifs
      · rw [List.filterMap_cons, htoken]
      · rfl

/-- Where the keys decide, the cache does not matter. -/
lemma tokensAmong_of_oneClassPerKey (h : t.OneClassPerKey r) {l : List Position}
    (hl : ∀ p ∈ l, p ∈ t.reached) :
    t.tokensAmong r l = l.filterMap fun p => t.tokenOf p (t.ownClass r p) := by
  apply List.filterMap_congr
  intro p hp
  rw [classAmong]
  split_ifs with huses
  · rw [ownClass_of_usesCache huses]
    have hmem : p ∈ l.filter (t.usesCache r) := List.mem_filter.mpr ⟨hp, huses⟩
    have hfirst := List.mem_filter.mp (@firstLike_mem _ _ _ t.cacheKey _ _ hmem)
    obtain ⟨n, hn⟩ := exists_of_mem_reached (hl p hp)
    by_cases hwidth : n.start < n.stop
    · have hrange : (t.byteRange p).start < (t.byteRange p).stop := by
        rw [byteRange, get_of_eq hn]
        exact hwidth
      rw [h p (hl p hp) _ (hl _ hfirst.1) huses hfirst.2 hrange (key_firstLike _ p).symm]
    · have hle := (t.valid p n hn).ordered.start_le_stop
      have hempty : (t.get p).start = (t.get p).stop := by
        rw [get_of_eq hn]
        omega
      have hnone : ∀ c, t.tokenOf p c = none := by
        intro c
        cases c with
        | none => rfl
        | some c => rw [tokenOf, Option.bind_some, rawToken_of_empty hempty, Option.map_none]
      rw [hnone, hnone]
  · rfl

/-- The range of the whole document. -/
abbrev fullRange (t : TreeDocument) : ByteRange := ⟨0, utf8Length t.document.source.toList⟩

lemma stop_bytesOfRange_le {range : SourceRange} (h : t.FitsText range) :
    (t.bytesOfRange range).stop ≤ utf8Length t.document.source.toList := by
  obtain ⟨byte, hbyte⟩ := Option.isSome_iff_exists.mp h.stop
  obtain ⟨before, hbefore, rfl⟩ := LineIndex.positionToByte_eq_some.mp hbyte
  obtain ⟨after, hsource⟩ := hbefore.exists_append
  have hstop : (t.bytesOfRange range).stop = utf8Length before := by
    simp only [bytesOfRange, hbyte, Option.getD_some]
  rw [hstop, hsource, utf8Length_append]
  omega

lemma filter_intersects_fullRange {range : SourceRange} (h : t.FitsText range) (l : List Position) :
    (l.filter (t.intersects t.fullRange)).filter (t.intersects (t.bytesOfRange range)) =
      l.filter (t.intersects (t.bytesOfRange range)) := by
  rw [List.filter_filter]
  apply List.filter_congr
  intro p _
  cases hin : t.intersects (t.bytesOfRange range) p with
  | false => rfl
  | true =>
    have hle := stop_bytesOfRange_le h
    have hfull : t.intersects t.fullRange p = true := by
      rw [intersects_iff] at hin ⊢
      simp only
      omega
    rw [hfull, Bool.and_self]

/-- Only the identifier itself overlaps it among the identifiers. -/
lemma eq_of_intersects_ident {p q : Position} (hp : t.kind p = .ident) (hq : t.kind q = .ident)
    (hmem : p ∈ t.reached) (h : t.intersects (t.byteRange p) q = true) : q = p := by
  obtain ⟨n, hn⟩ := exists_of_mem_reached hmem
  obtain ⟨m, hm⟩ := exists_of_intersects h
  rw [kind, get_of_eq hn] at hp
  rw [kind, get_of_eq hm] at hq
  have hleafn := ((t.valid p n hn).ident hp).1
  have hleafm := ((t.valid q m hm).ident hq).1
  rw [intersects_iff, get_of_eq hm, byteRange, get_of_eq hn] at h
  have hleaf : ∀ {a b : Position} {x y : TokenNode}, t.root.get? a = some x → x.children = [] →
      t.root.get? b = some y → a <+: b → b = a := by
    rintro a b x y hx hleaf hy ⟨rest, rfl⟩
    cases rest with
    | nil => rw [List.append_nil]
    | cons i rest =>
      rw [RangedTree.get?_append, hx, Option.bind_some, RangedTree.get?, hleaf] at hy
      cases hy
  simp only at h
  rcases t.wellFormed.nested_or_disjoint hn hm with hpq | hqp | hbefore | hbehind
  · exact hleaf hn hleafn hm hpq
  · exact (hleaf hm hleafm hn hqp).symm
  · omega
  · omega

/-- The positions of its two ends. -/
lemma exists_range {p : Position} {n : TokenNode} (hn : t.root.get? p = some n) :
    ∃ range, t.FitsText range ∧ t.bytesOfRange range = t.byteRange p := by
  have hvalid := t.valid p n hn
  obtain ⟨start, -, hstart⟩ :=
    LineIndex.positionToByte_byteToPosition t.addressable hvalid.start_boundary
  obtain ⟨stop, -, hstop⟩ :=
    LineIndex.positionToByte_byteToPosition t.addressable hvalid.stop_boundary
  refine ⟨⟨start, stop⟩, ⟨by rw [hstart]; rfl, by rw [hstop]; rfl⟩, ?_⟩
  simp only [bytesOfRange, hstart, hstop, Option.getD_some, byteRange, get_of_eq hn]

/-- If all ranges restrict the document, the first identifier of a key has the class of every
other one. -/
lemma resolvedClass_firstLike (h : t.RangesRestrict r) {p : Position} (hp : p ∈ t.reached)
    (huses : t.usesCache r p = true) (hwidth : (t.byteRange p).start < (t.byteRange p).stop) :
    t.resolvedClass r p = t.resolvedClass r (firstLike t.cacheKey
      ((t.reached.filter (t.intersects t.fullRange)).filter (t.usesCache r)) p) := by
  obtain ⟨n, hn⟩ := exists_of_mem_reached hp
  have hident := kind_of_usesCache huses
  obtain ⟨range, hfits, hbytes⟩ := exists_range hn
  have hown : t.intersects (t.byteRange p) p = true := by
    rw [intersects_iff]
    exact ⟨hwidth, hwidth⟩
  have hmemr : p ∈ t.reached.filter (t.intersects (t.byteRange p)) :=
    List.mem_filter.mpr ⟨hp, hown⟩
  have hmemf : p ∈ t.reached.filter (t.intersects t.fullRange) := by
    have hmem := filter_intersects_fullRange hfits t.reached
    rw [hbytes] at hmem
    rw [← hmem] at hmemr
    exact List.mem_of_mem_filter hmemr
  have honly : t.classAmong r (t.reached.filter (t.intersects (t.byteRange p))) p =
      t.resolvedClass r p := by
    rw [classAmong, if_pos huses]
    have hmem := List.mem_filter.mpr ⟨hmemr, huses⟩
    have hfirst := List.mem_filter.mp (@firstLike_mem _ _ _ t.cacheKey _ _ hmem)
    have hsame := eq_of_intersects_ident hident (kind_of_usesCache hfirst.2) hp
      (List.mem_filter.mp hfirst.1).2
    rw [hsame]
  have hfull : t.classAmong r (t.reached.filter (t.intersects t.fullRange)) p =
      t.resolvedClass r (firstLike t.cacheKey
        ((t.reached.filter (t.intersects t.fullRange)).filter (t.usesCache r)) p) := by
    rw [classAmong, if_pos huses]
  have hlists := h range hfits _ _ _ _ (collectInByteRange_uncancelled _)
    (collectInByteRange_uncancelled _)
  rw [hbytes] at hlists
  have hnwidth : n.start < n.stop := by
    rw [byteRange, get_of_eq hn] at hwidth
    exact hwidth
  obtain ⟨line, start, length, hraw⟩ := rawToken_of_ident hn hident hnwidth
  rw [← honly, ← hfull]
  have hmem : ∀ c : TokenClass,
      t.classAmong r (t.reached.filter (t.intersects (t.byteRange p))) p = some c ↔
        t.classAmong r (t.reached.filter (t.intersects t.fullRange)) p = some c := by
    intro c
    have hin : (p, (⟨line, start, length, c.1, c.2⟩ : RawToken)) ∈
        t.tokensAmong r (t.reached.filter (t.intersects (t.byteRange p))) ↔
          (p, (⟨line, start, length, c.1, c.2⟩ : RawToken)) ∈
            t.tokensAmong r (t.reached.filter (t.intersects t.fullRange)) := by
      rw [hlists, List.mem_filter]
      exact and_iff_left hown
    have hclass : ∀ {l : List Position}, p ∈ l →
        ((p, (⟨line, start, length, c.1, c.2⟩ : RawToken)) ∈ t.tokensAmong r l ↔
          t.classAmong r l p = some c) := by
      intro l hl
      rw [mem_tokensAmong, and_iff_right hl]
      constructor
      · rintro ⟨c', hc', htoken⟩
        rw [hraw c', Option.some.injEq, RawToken.mk.injEq] at htoken
        obtain ⟨-, -, -, htype, hmodifiers⟩ := htoken
        rw [hc', ← Prod.eta c, ← htype, ← hmodifiers]
      · intro hc
        exact ⟨c, hc, hraw c⟩
    rw [← hclass hmemr, ← hclass hmemf, hin]
  exact Option.ext hmem

lemma oneClassPerKey_of_rangesRestrict (h : t.RangesRestrict r) : t.OneClassPerKey r := by
  intro p hp q hq husesp husesq hwidth hkey
  obtain ⟨n, hn⟩ := exists_of_mem_reached hp
  obtain ⟨m, hm⟩ := exists_of_mem_reached hq
  have htext : t.text p = t.text q := congrArg Prod.fst hkey
  have hwidthq : (t.byteRange q).start < (t.byteRange q).stop := by
    have hlength := utf8Length_text hn
    have hlength' := utf8Length_text hm
    rw [htext] at hlength
    rw [byteRange, get_of_eq hn] at hwidth
    rw [byteRange, get_of_eq hm]
    simp only at hwidth ⊢
    omega
  have hfull : q ∈ (t.reached.filter (t.intersects t.fullRange)).filter (t.usesCache r) := by
    rw [List.mem_filter, List.mem_filter]
    refine ⟨⟨hq, ?_⟩, husesq⟩
    obtain ⟨range, hfits, hbytes⟩ := exists_range hm
    have hle := stop_bytesOfRange_le hfits
    rw [hbytes] at hle
    rw [intersects_iff]
    simp only [byteRange] at hle hwidthq ⊢
    omega
  rw [resolvedClass_firstLike h hp husesp hwidth, resolvedClass_firstLike h hq husesq hwidthq,
    firstLike_congr hfull hkey]

/-- The tokens of all ranges are the tokens of the document in them exactly when the identifiers of
one cache key have one class. -/
theorem rangesRestrict_iff (r : Resolver) (t : TreeDocument) :
    t.RangesRestrict r ↔ t.OneClassPerKey r := by
  refine ⟨oneClassPerKey_of_rangesRestrict, ?_⟩
  intro h range hfits _ _ tokens all htokens hall
  have hreached : ∀ range, ∀ p ∈ t.reached.filter (t.intersects range), p ∈ t.reached :=
    fun range p hp => List.mem_of_mem_filter hp
  rw [collectInByteRange_eq htokens, collectInByteRange_eq hall,
    tokensAmong_of_oneClassPerKey h (hreached _), tokensAmong_of_oneClassPerKey h (hreached _),
    filter_filterMap_tokenOf, filter_intersects_fullRange hfits]

end TreeDocument

def typeAndCallSource : String := "function f() : Foo { Foo(); }"

/-- Behind the colon the name is a type, in the block it is called. -/
def typeAndCallTree : TokenNode :=
  .node .other 0 29 [.node .funcDecl 0 29 [
    .node (.anonymous "function") 0 8 [], .node .ident 9 10 [], .node (.anonymous "(") 10 11 [],
    .node (.anonymous ")") 11 12 [], .node (.anonymous ":") 13 14 [],
    .node .other 15 18 [.node .ident 15 18 []],
    .node .other 19 29 [.node (.anonymous "\x7b") 19 20 [],
      .node .other 21 27 [
        .node .other 21 26 [.node .ident 21 24 [], .node (.anonymous "(") 24 25 [],
          .node (.anonymous ")") 25 26 []],
        .node (.anonymous ";") 26 27 []],
      .node (.anonymous "\x7d") 28 29 []]]]

def typeAndCall : TreeDocument where
  document := {
    source := typeAndCallSource
    symbols := [{ id := ⟨0⟩, name := "f", kind := .function, byteRange := ⟨0, 29⟩,
                  selectionByteRange := ⟨9, 10⟩, typeAnnotation := some (.named "Foo") }] }
  root := typeAndCallTree
  valid := typeAndCallTree.forall_get?_iff.mpr (by decide +kernel)
  addressable := by
    show utf8Length typeAndCallSource.toList < 2 ^ 32
    decide +kernel

/-- The file that declares both. -/
def fooFile : ParsedDocument where
  source := "class Foo {} function Foo() {}"
  symbols := [
    { id := ⟨0⟩, name := "Foo", kind := .class, byteRange := ⟨0, 12⟩,
      selectionByteRange := ⟨6, 9⟩ },
    { id := ⟨1⟩, name := "Foo", kind := .function, byteRange := ⟨13, 30⟩,
      selectionByteRange := ⟨22, 25⟩ }]

def fooResolver : Resolver where
  uri := "file:///b.ws"
  db := workspaceOf [.update "file:///a.ws" fooFile]
  callDepth := 1
  globals := []
  trees := fun _ => {
    selfKeywordAt := fun _ => none
    useOf := fun range => .plain (some (if range = ⟨15, 18⟩ then .type else .callable)) }

/-- In a scan of the document the call is coloured as the class. -/
theorem not_rangesRestrict_typeAndCall : ¬typeAndCall.RangesRestrict fooResolver := by
  intro h
  have hone := TreeDocument.oneClassPerKey_of_rangesRestrict h [0, 5, 0] (by decide +kernel)
    [0, 6, 1, 0, 0] (by decide +kernel) (by decide +kernel) (by decide +kernel) (by decide +kernel)
    (by decide +kernel)
  exact absurd hone (by decide +kernel)

end WitcherScriptLanguage
