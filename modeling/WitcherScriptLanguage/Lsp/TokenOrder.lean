import WitcherScriptLanguage.Lsp.SemanticTokens

/-!
# The order of the semantic tokens

The tokens are those of the nodes that the walk reaches, each with the class that the first
identifier with its cache key has. No token is inside another one, so they follow each other in
the text, and encoding them by distances loses nothing.
-/

namespace WitcherScriptLanguage

open Library

namespace TreeDocument

variable {r : Resolver} {t : TreeDocument}

lemma get_of_eq {p : Position} {n : TokenNode} (h : t.root.get? p = some n) : t.get p = n := by
  rw [get, h, Option.getD_some]

lemma wellFormed (t : TreeDocument) : t.root.WellFormed := fun p n hn => (t.valid p n hn).ordered

/-- A node that overlaps something is one of the tree. -/
lemma exists_of_intersects {range : ByteRange} {p : Position} (h : t.intersects range p = true) :
    ∃ n, t.root.get? p = some n := by
  cases hp : t.root.get? p with
  | some n => exact ⟨n, rfl⟩
  | none =>
    have hget : t.get p = .node .other 0 0 [] := by
      rw [get, hp, Option.getD_none]
    rw [intersects, hget] at h
    simp [RangedTree.stop] at h

lemma intersects_iff {range : ByteRange} {p : Position} : t.intersects range p = true ↔
    range.start < (t.get p).stop ∧ (t.get p).start < range.stop := by
  simp [intersects]

/-- What is above an overlapping node overlaps too. -/
lemma intersects_above {range : ByteRange} {p q : Position}
    (h : t.intersects range (p ++ q) = true) : t.intersects range p = true := by
  obtain ⟨n, hn⟩ := exists_of_intersects h
  obtain ⟨m, hm, -⟩ := RangedTree.get?_append_eq_some hn
  have hinside := t.wellFormed.inside_of_prefix (List.prefix_append p q) hm hn
  rw [intersects_iff, get_of_eq hn] at h
  rw [intersects_iff, get_of_eq hm]
  omega

/-- Whether the walk goes below a node of the kind. -/
def opens (t : TreeDocument) (p : Position) : Bool :=
  (t.kind p).isNamed && (classifyKind (t.kind p)).isNone

/-- The nodes that a walk through the whole tree enters. -/
def reached (t : TreeDocument) : List Position :=
  RangedTree.enteredFrom t.opens [] 0 t.root.children

/-- The token of a node with its class. -/
def tokenOf (t : TreeDocument) (p : Position) (tokenClass : Option TokenClass) :
    Option (Position × RawToken) :=
  (tokenClass.bind (t.rawToken p)).map fun token => (p, token)

/-- What `enter` does at a node in the range. -/
def visit (r : Resolver) (t : TreeDocument) (s : TokenCollector) (p : Position) : TokenCollector :=
  ⟨(t.classify r p s.cache).2, s.tokens ++ (t.tokenOf p (t.classify r p s.cache).1).toList⟩

lemma enter_fst (range : ByteRange) (p : Position) (s : TokenCollector) :
    (t.enter r range p s).1 = if t.intersects range p then t.visit r s p else s := by
  unfold enter visit
  cases t.intersects range p with
  | false => rfl
  | true =>
    cases hclass : t.classify r p s.cache with
    | mk tokenClass cache => cases tokenClass <;> simp [tokenOf]

/-- Identifiers have no children, and the class of another node does not depend on the cache. -/
lemma enter_snd (range : ByteRange) {p : Position} {n : TokenNode} (hn : t.root.get? p = some n)
    (s : TokenCollector) : n.children = [] ∨
      (t.enter r range p s).2 = (t.intersects range p && t.opens p) := by
  by_cases hident : t.kind p = .ident
  · left
    rw [kind, get_of_eq hn] at hident
    exact ((t.valid p n hn).ident hident).1
  · right
    unfold enter opens classify
    rw [if_neg hident]
    cases t.intersects range p with
    | false => rfl
    | true =>
      cases classifyKind (t.kind p) with
      | none => simp
      | some tokenClass => simp

lemma decides (range : ByteRange) {i : Nat} {child : TokenNode}
    (hchild : t.root.children[i]? = some child) :
    RangedTree.Decides (t.enter r range) (fun p => t.intersects range p && t.opens p) [i] child := by
  intro q n s hn
  have hpos : t.root.get? ([i] ++ q) = some n := by
    rw [List.singleton_append, RangedTree.get?, hchild, Option.bind_some, hn]
  exact enter_snd range hpos s

lemma collectFrom_eq_some {shouldContinue : Nat → Bool} {range : ByteRange} {i : Nat}
    {children : List TokenNode} {s s' : TokenCollector}
    (h : t.collectFrom r shouldContinue range i children s = some s') :
    s' = RangedTree.walkFrom (t.enter r range) [] i children s := by
  induction children generalizing i s with
  | nil =>
    cases h
    rfl
  | cons child children ih =>
    rw [collectFrom] at h
    split_ifs at h
    rw [RangedTree.walkFrom, List.nil_append]
    exact ih h

lemma collectFrom_uncancelled {range : ByteRange} {i : Nat} {children : List TokenNode}
    {s : TokenCollector} : (t.collectFrom r (fun _ => true) range i children s).isSome := by
  induction children generalizing i s with
  | nil => rfl
  | cons child children ih =>
    rw [collectFrom, if_pos rfl]
    exact ih

/-- The walk visits the reached nodes that overlap the range. -/
lemma walkFrom_eq (range : ByteRange) :
    RangedTree.walkFrom (t.enter r range) [] 0 t.root.children {} =
      (t.reached.filter (t.intersects range)).foldl (t.visit r) {} := by
  have hdecides : ∀ j child, t.root.children[j]? = some child → RangedTree.Decides (t.enter r range)
      (fun p => t.intersects range p && t.opens p) ([] ++ [0 + j]) child := by
    intro j child hchild
    rw [List.nil_append, Nat.zero_add]
    exact decides range hchild
  have hfilter := @RangedTree.filter_enteredFrom _ t.opens (t.intersects range)
    (fun p q => intersects_above) [] 0 t.root.children
  rw [RangedTree.walkFrom_eq_foldl hdecides, reached, ← hfilter, List.foldl_filter]
  congr 1
  funext s p
  exact enter_fst range p s

def usesCache (r : Resolver) (t : TreeDocument) (p : Position) : Bool :=
  t.kind p = .ident && (t.beforeCache r p).isNone

/-- The class of a node without the cache. -/
def ownClass (r : Resolver) (t : TreeDocument) (p : Position) : Option TokenClass :=
  if t.kind p = .ident then (t.beforeCache r p).getD (t.resolvedClass r p)
  else classifyKind (t.kind p)

/-- The class of a node when the given nodes are visited. -/
def classAmong (r : Resolver) (t : TreeDocument) (l : List Position) (p : Position) :
    Option TokenClass :=
  if t.usesCache r p then
    t.resolvedClass r (firstLike t.cacheKey (l.filter (t.usesCache r)) p)
  else t.ownClass r p

/-- The tokens of the given nodes. -/
def tokensAmong (r : Resolver) (t : TreeDocument) (l : List Position) :
    List (Position × RawToken) :=
  l.filterMap fun p => t.tokenOf p (t.classAmong r l p)

lemma ownClass_of_usesCache {p : Position} (h : t.usesCache r p = true) :
    t.ownClass r p = t.resolvedClass r p := by
  rw [usesCache, Bool.and_eq_true, decide_eq_true_iff, Option.isNone_iff_eq_none] at h
  rw [ownClass, if_pos h.1, h.2, Option.getD_none]

lemma classify_of_usesCache {p : Position} (h : t.usesCache r p = true) (cache : ClassifyCache) :
    t.classify r p cache = memo t.cacheKey (t.resolvedClass r) p cache := by
  rw [usesCache, Bool.and_eq_true, decide_eq_true_iff, Option.isNone_iff_eq_none] at h
  rw [classify, if_pos h.1, classifyIdent]
  simp only [h.2]

lemma classify_of_not_usesCache {p : Position} (h : t.usesCache r p = false)
    (cache : ClassifyCache) : t.classify r p cache = (t.ownClass r p, cache) := by
  unfold classify ownClass
  by_cases hident : t.kind p = .ident
  · rw [if_pos hident, if_pos hident, classifyIdent]
    rw [usesCache, hident] at h
    cases hbefore : t.beforeCache r p with
    | none =>
      rw [hbefore] at h
      cases h
    | some result => rfl
  · rw [if_neg hident, if_neg hident]

/-- Nodes visited later do not change the class of a node. -/
lemma classAmong_append {l : List Position} {p : Position} (hp : p ∈ l) (later : List Position) :
    t.classAmong r (l ++ later) p = t.classAmong r l p := by
  unfold classAmong
  cases huses : t.usesCache r p with
  | false => rfl
  | true =>
    have hmem : p ∈ l.filter (t.usesCache r) := List.mem_filter.mpr ⟨hp, huses⟩
    rw [if_pos rfl, if_pos rfl, List.filter_append, firstLike_append hmem]

lemma tokensAmong_concat (l : List Position) (p : Position) :
    t.tokensAmong r (l ++ [p]) = t.tokensAmong r l ++
      (t.tokenOf p (t.classAmong r (l ++ [p]) p)).toList := by
  have hfront : l.filterMap (fun q => t.tokenOf q (t.classAmong r (l ++ [p]) q)) =
      t.tokensAmong r l := by
    apply List.filterMap_congr
    intro q hq
    rw [classAmong_append hq]
  rw [tokensAmong, List.filterMap_append, hfront, List.filterMap_cons]
  cases t.tokenOf p (t.classAmong r (l ++ [p]) p) <;> rfl

/-- The visits in a row, by induction from the end. -/
lemma foldl_visit (l : List Position) :
    Remembers t.cacheKey (t.resolvedClass r) (l.filter (t.usesCache r))
        (l.foldl (t.visit r) {}).cache ∧
      (l.foldl (t.visit r) {}).tokens = t.tokensAmong r l := by
  induction l using List.reverseRecOn with
  | nil => exact ⟨remembers_nil, rfl⟩
  | append_singleton l p ih =>
    obtain ⟨hcache, htokens⟩ := ih
    rw [List.foldl_append, List.foldl_cons, List.foldl_nil, List.filter_append, tokensAmong_concat,
      visit, htokens]
    cases huses : t.usesCache r p with
    | true =>
      have hlist : [p].filter (t.usesCache r) = [p] := by
        rw [List.filter_cons_of_pos huses, List.filter_nil]
      obtain ⟨hclass, hnext⟩ := hcache.memo p
      have hamong : t.classAmong r (l ++ [p]) p =
          (t.classify r p (l.foldl (t.visit r) {}).cache).1 := by
        rw [classAmong, if_pos huses, classify_of_usesCache huses, hclass, List.filter_append, hlist]
      rw [hamong, hlist]
      refine ⟨?_, rfl⟩
      rw [classify_of_usesCache huses]
      exact hnext
    | false =>
      have hnot : ¬t.usesCache r p = true := by
        rw [huses]
        exact Bool.false_ne_true
      have hlist : [p].filter (t.usesCache r) = [] := by
        rw [List.filter_cons_of_neg hnot, List.filter_nil]
      have hamong : t.classAmong r (l ++ [p]) p = t.ownClass r p := by
        rw [classAmong, if_neg hnot]
      rw [hamong, classify_of_not_usesCache huses, hlist, List.append_nil]
      exact ⟨hcache, rfl⟩

/-- The tokens of a range are those of the reached nodes that overlap it. -/
lemma collectInByteRange_eq {range : ByteRange} {shouldContinue : Nat → Bool}
    {tokens : List (Position × RawToken)}
    (h : t.collectInByteRange r range shouldContinue = some tokens) :
    tokens = t.tokensAmong r (t.reached.filter (t.intersects range)) := by
  obtain ⟨s, hs, rfl⟩ := Option.map_eq_some_iff.mp h
  rw [collectFrom_eq_some hs, walkFrom_eq]
  exact (foldl_visit _).2

lemma collectInByteRange_uncancelled (range : ByteRange) :
    t.collectInByteRange r range (fun _ => true) =
      some (t.tokensAmong r (t.reached.filter (t.intersects range))) := by
  obtain ⟨s, hs⟩ := Option.isSome_iff_exists.mp
    (@collectFrom_uncancelled r t range 0 t.root.children {})
  have hsome : t.collectInByteRange r range (fun _ => true) = some s.tokens := by
    rw [collectInByteRange, hs, Option.map_some]
  rw [hsome, collectInByteRange_eq hsome]

lemma exists_of_mem_reached {p : Position} (h : p ∈ t.reached) : ∃ n, t.root.get? p = some n := by
  obtain ⟨j, q, rfl, hsome⟩ := RangedTree.exists_of_mem_enteredFrom h
  rw [Nat.zero_add]
  exact Option.isSome_iff_exists.mp hsome

lemma tokenOf_eq_some {p : Position} {tokenClass : Option TokenClass} {token : Position × RawToken}
    (h : t.tokenOf p tokenClass = some token) :
    token.1 = p ∧ ∃ c, tokenClass = some c ∧ t.rawToken p c = some token.2 := by
  obtain ⟨raw, hraw, rfl⟩ := Option.map_eq_some_iff.mp h
  exact ⟨rfl, Option.bind_eq_some_iff.mp hraw⟩

lemma rawToken_eq_some {p : Position} {c : TokenClass} {token : RawToken}
    (h : t.rawToken p c = some token) : ∃ start stop,
      (LineIndex.new t.document.source).byteToPosition t.document.source (t.get p).start = some start ∧
      (LineIndex.new t.document.source).byteToPosition t.document.source (t.get p).stop = some stop ∧
      start.line = stop.line ∧ start.character < stop.character ∧
      token = ⟨start.line, start.character, stop.character - start.character, c.1, c.2⟩ := by
  unfold rawToken at h
  simp only [Option.bind_eq_bind, Option.bind_eq_some_iff] at h
  obtain ⟨start, hstart, stop, hstop, h⟩ := h
  split_ifs at h with hwidth
  rw [Bool.and_eq_true, decide_eq_true_iff, decide_eq_true_iff] at hwidth
  exact ⟨start, stop, hstart, hstop, hwidth.1, hwidth.2, (Option.some.inj h).symm⟩

/-- The walk goes below no token. -/
lemma leaf_of_opens {l : List Position} {p : Position} {n : TokenNode} {c : TokenClass}
    (hn : t.root.get? p = some n) (hopens : t.opens p = true) (hclass : t.classAmong r l p = some c) :
    n.children = [] := by
  by_cases hident : t.kind p = .ident
  · rw [kind, get_of_eq hn] at hident
    exact ((t.valid p n hn).ident hident).1
  · have huses : ¬t.usesCache r p = true := by
      rw [usesCache, decide_eq_false hident, Bool.false_and]
      exact Bool.false_ne_true
    rw [classAmong, if_neg huses, ownClass, if_neg hident] at hclass
    rw [opens, Bool.and_eq_true, hclass] at hopens
    cases hopens.2

end TreeDocument

/-- In front of the other, by line and column. -/
def RawToken.Earlier (a b : RawToken) : Prop :=
  a.line < b.line ∨ a.line = b.line ∧ a.startChar < b.startChar

namespace TreeDocument

variable {r : Resolver} {t : TreeDocument}

/-- A token ends in front of the nodes behind it. -/
lemma earlier_of_before {l : List Position} {p q : Position} {a b : Position × RawToken}
    (hp : p ∈ t.reached) (hq : q ∈ t.reached)
    (horder : (∃ i rest, q = p ++ i :: rest ∧ t.opens p = true) ∨ RangedTree.Before p q)
    (ha : t.tokenOf p (t.classAmong r l p) = some a)
    (hb : t.tokenOf q (t.classAmong r l q) = some b) : a.2.Earlier b.2 := by
  obtain ⟨n, hn⟩ := exists_of_mem_reached hp
  obtain ⟨m, hm⟩ := exists_of_mem_reached hq
  obtain ⟨-, c, hclass, hrawa⟩ := tokenOf_eq_some ha
  obtain ⟨-, c', -, hrawb⟩ := tokenOf_eq_some hb
  have hbytes : n.stop ≤ m.start := by
    rcases horder with ⟨i, rest, rfl, hopens⟩ | ⟨above, p', q', i, j, hij, rfl, rfl⟩
    · have hleaf := leaf_of_opens hn hopens hclass
      rw [RangedTree.get?_append, hn, Option.bind_some, RangedTree.get?, hleaf] at hm
      cases hm
    · exact t.wellFormed.before_of_lt hij hn hm
  obtain ⟨starta, stopa, hstarta, hstopa, hline, hwidth, htokena⟩ := rawToken_eq_some hrawa
  obtain ⟨startb, stopb, hstartb, hstopb, -, -, htokenb⟩ := rawToken_eq_some hrawb
  rw [get_of_eq hn] at hstopa
  rw [get_of_eq hm] at hstartb
  have hmono := LineIndex.byteToPosition_mono t.addressable (t.valid p n hn).stop_boundary
    (t.valid q m hm).start_boundary hbytes hstopa hstartb
  rw [htokena, htokenb]
  rcases hmono with hlt | ⟨heq, hle⟩
  · left
    exact lt_of_eq_of_lt hline hlt
  · right
    exact ⟨hline.trans heq, lt_of_lt_of_le hwidth hle⟩

/-- The collected tokens follow each other. -/
lemma collected_earlier {range : ByteRange} {shouldContinue : Nat → Bool}
    {tokens : List (Position × RawToken)}
    (h : t.collectInByteRange r range shouldContinue = some tokens) :
    (tokens.map (·.2)).Pairwise RawToken.Earlier := by
  have hreached : (t.reached.filter (t.intersects range)).Pairwise fun p q =>
      (∃ i rest, q = p ++ i :: rest ∧ t.opens p = true) ∨ RangedTree.Before p q :=
    (RangedTree.pairwise_enteredFrom t.opens [] 0 t.root.children).sublist List.filter_sublist
  rw [collectInByteRange_eq h, List.pairwise_map, tokensAmong, List.pairwise_filterMap]
  apply hreached.imp_of_mem
  intro p q hp hq horder a ha b hb
  exact earlier_of_before (List.mem_of_mem_filter hp) (List.mem_of_mem_filter hq) horder ha hb

end TreeDocument

/-- Tokens behind a place, each behind the one in front of it, are encoded without underflow and
recovered. -/
lemma encodeFrom_lossless {tokens : List RawToken} {line start : Nat}
    (hbehind : ∀ token ∈ tokens, line < token.line ∨ line = token.line ∧ start ≤ token.startChar)
    (horder : tokens.Pairwise RawToken.Earlier) :
    ∃ data, encodeFrom line start tokens = some data ∧ decodeFrom line start data = tokens := by
  induction tokens generalizing line start with
  | nil => exact ⟨[], rfl, rfl⟩
  | cons token tokens ih =>
    obtain ⟨hfirst, hrest⟩ := List.pairwise_cons.mp horder
    have hplace := hbehind token List.mem_cons_self
    have hnext : ∀ later ∈ tokens,
        token.line < later.line ∨ token.line = later.line ∧ token.startChar ≤ later.startChar := by
      intro later hlater
      rcases hfirst later hlater with hlt | ⟨heq, hlt⟩
      · exact .inl hlt
      · exact .inr ⟨heq, Nat.le_of_lt hlt⟩
    obtain ⟨data, hencode, hdecode⟩ := ih hnext hrest
    have hline : checkedSub token.line line = some (token.line - line) := by
      apply if_pos
      omega
    have hlines : line + (token.line - line) = token.line := by omega
    by_cases hsame : token.line - line = 0
    · have hstart : deltaStartOf (token.line - line) token.startChar start =
          some (token.startChar - start) := by
        rw [deltaStartOf, if_pos hsame]
        apply if_pos
        omega
      have hstarts : start + (token.startChar - start) = token.startChar := by omega
      have hencoded : encodeFrom line start (token :: tokens) =
          some ([token.line - line, token.startChar - start, token.length, token.tokenType,
            token.tokenModifiers] ++ data) := by
        simp [encodeFrom, hline, hstart, hencode]
      refine ⟨_, hencoded, ?_⟩
      simp only [List.cons_append, List.nil_append, decodeFrom, if_pos hsame, hstarts, hlines,
        hdecode]
    · have hstart : deltaStartOf (token.line - line) token.startChar start =
          some token.startChar := by
        rw [deltaStartOf, if_neg hsame]
      have hencoded : encodeFrom line start (token :: tokens) =
          some ([token.line - line, token.startChar, token.length, token.tokenType,
            token.tokenModifiers] ++ data) := by
        simp [encodeFrom, hline, hstart, hencode]
      refine ⟨_, hencoded, ?_⟩
      simp only [List.cons_append, List.nil_append, decodeFrom, if_neg hsame, hlines, hdecode]

/-- The tokens of every range follow each other by line and column, encoding them never
underflows, and decoding gives them back. -/
theorem encode_lossless (r : Resolver) (t : TreeDocument) (range : ByteRange)
    (shouldContinue : Nat → Bool) {tokens : List (Position × RawToken)}
    (h : t.collectInByteRange r range shouldContinue = some tokens) :
    (tokens.map (·.2)).Pairwise RawToken.Earlier ∧
      ∃ data, encode (tokens.map (·.2)) = some data ∧ decode data = tokens.map (·.2) := by
  have horder := TreeDocument.collected_earlier h
  refine ⟨horder, encodeFrom_lossless ?_ horder⟩
  intro token _
  rcases Nat.eq_zero_or_pos token.line with hzero | hpos
  · exact .inr ⟨hzero.symm, Nat.zero_le _⟩
  · exact .inl hpos

/-- Two comments on the first line and one on the second. -/
def threeComments : TreeDocument where
  document := { source := "/*a*/ /*b*/\n// c", symbols := [] }
  root := .node .other 0 16 [.node .comment 0 5 [], .node .comment 6 11 [], .node .comment 12 16 []]
  valid := (RangedTree.forall_get?_iff _).mpr (by decide +kernel)
  addressable := by
    show utf8Length "/*a*/ /*b*/\n// c".toList < 2 ^ 32
    decide +kernel

def emptyResolver : Resolver where
  uri := "file:///a.ws"
  db := workspaceOf []
  callDepth := 1
  globals := []
  trees := fun _ => { selfKeywordAt := fun _ => none, useOf := fun _ => .plain none }

theorem encode_lossless_threeComments : ∃ tokens,
    threeComments.collectInByteRange emptyResolver ⟨0, 16⟩ (fun _ => true) = some tokens ∧
      (tokens.map (·.2)).Pairwise RawToken.Earlier ∧
        encode (tokens.map (·.2)) = some [0, 0, 5, 8, 0, 0, 6, 5, 8, 0, 1, 0, 4, 8, 0] ∧
          decode [0, 0, 5, 8, 0, 0, 6, 5, 8, 0, 1, 0, 4, 8, 0] = tokens.map (·.2) := by
  have h := @TreeDocument.collectInByteRange_uncancelled emptyResolver threeComments ⟨0, 16⟩
  obtain ⟨horder, data, hencode, hdecode⟩ := encode_lossless emptyResolver threeComments ⟨0, 16⟩ _ h
  have hdata : encode ((threeComments.tokensAmong emptyResolver
      (threeComments.reached.filter (threeComments.intersects ⟨0, 16⟩))).map (·.2)) =
        some [0, 0, 5, 8, 0, 0, 6, 5, 8, 0, 1, 0, 4, 8, 0] := by decide +kernel
  rw [hdata] at hencode
  obtain rfl := Option.some.inj hencode
  exact ⟨_, h, horder, hdata, hdecode⟩

end WitcherScriptLanguage
