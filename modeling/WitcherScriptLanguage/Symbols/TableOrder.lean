import Mathlib.Data.List.Pairwise
import Mathlib.Data.Nat.Basic
import Mathlib.Order.Basic
import WitcherScriptLanguage.Symbols.TableShape

/-!
# The order of the symbol table

In a tree whose nodes follow each other, the symbols stand in the table in the order of their
starts. Of two symbols the first is a container of the second, ends in front of it, or is another
name of the same declaration.
-/

namespace WitcherScriptLanguage

/-- The children of every node follow each other, and the parameters of a callable that extraction
enters stand in front of its block, as the grammar has them. -/
inductive SyntaxNode.Ordered : SyntaxNode → Prop
  | mk {node : SyntaxNode} (start_le_stop : node.range.start ≤ node.range.stop)
      (successive : node.children.Pairwise fun a b => a.range.stop ≤ b.range.start)
      (paramsFirst : node.EntersCallable → ∀ params, node.firstChildKind .funcParams = some params →
        ∀ block ∈ node.children, block.kind = .funcBlock → params.range.stop ≤ block.range.start)
      (ordered : ∀ child ∈ node.children, child.Ordered) : Ordered node

namespace SyntaxNode.Ordered

variable {node : SyntaxNode}

lemma start_le_stop (h : node.Ordered) : node.range.start ≤ node.range.stop := by
  cases h with
  | mk start_le_stop successive paramsFirst ordered => exact start_le_stop

lemma successive (h : node.Ordered) :
    node.children.Pairwise fun a b => a.range.stop ≤ b.range.start := by
  cases h with
  | mk start_le_stop successive paramsFirst ordered => exact successive

lemma paramsFirst (h : node.Ordered) (henters : node.EntersCallable) {params block : SyntaxNode}
    (hparams : node.firstChildKind .funcParams = some params) (hblock : block ∈ node.children)
    (hkind : block.kind = .funcBlock) : params.range.stop ≤ block.range.start := by
  cases h with
  | mk start_le_stop successive paramsFirst ordered =>
    exact paramsFirst henters params hparams block hblock hkind

lemma children (h : node.Ordered) : ∀ child ∈ node.children, child.Ordered := by
  cases h with
  | mk start_le_stop successive paramsFirst ordered => exact ordered

end SyntaxNode.Ordered

/-- Nodes that follow each other between two offsets. -/
structure Lined (lo : Nat) (nodes : List SyntaxNode) (hi : Nat) : Prop where
  le : lo ≤ hi
  within : ∀ node ∈ nodes, lo ≤ node.range.start ∧ node.range.stop ≤ hi
  successive : nodes.Pairwise fun a b => a.range.stop ≤ b.range.start

/-- The children of a node. -/
lemma lined_children {node : SyntaxNode} (hordered : node.Ordered) (hnested : node.Nested) :
    Lined node.range.start node.children node.range.stop :=
  ⟨hordered.start_le_stop, hnested.inside, hordered.successive⟩

lemma Lined.sublist {lo hi : Nat} {nodes nodes' : List SyntaxNode} (h : Lined lo nodes hi)
    (hsub : nodes'.Sublist nodes) : Lined lo nodes' hi :=
  ⟨h.le, fun node hnode => h.within node (hsub.subset hnode), h.successive.sublist hsub⟩

lemma Lined.tail {lo hi : Nat} {node : SyntaxNode} {nodes : List SyntaxNode}
    (h : Lined lo (node :: nodes) hi) : Lined node.range.stop nodes hi :=
  ⟨(h.within node List.mem_cons_self).2,
    fun n hn => ⟨List.rel_of_pairwise_cons h.successive hn,
      (h.within n (List.mem_cons_of_mem _ hn)).2⟩,
    (List.pairwise_cons.mp h.successive).2⟩

/-- From the second symbol, containers lead to the first one. -/
inductive Encloses (symbols : List Symbol) (i : Nat) : Nat → Prop
  | direct {j : Nat} {s : Symbol} (hs : symbols[j]? = some s) (hcontainer : s.container = some ⟨i⟩) :
      Encloses symbols i j
  | step {j k : Nat} {s : Symbol} (hs : symbols[j]? = some s)
      (hcontainer : s.container = some ⟨k⟩) (h : Encloses symbols i k) : Encloses symbols i j

/-- The symbol is the given container, or leads out of it. -/
def OnPath (symbols : List Symbol) (container : Option SymbolId) (i : Nat) : Prop :=
  ∃ id, container = some id ∧ (i = id.val ∨ Encloses symbols i id.val)

section Paths

variable {symbols symbols' : List Symbol} {i j : Nat}

lemma Encloses.extend (h : Encloses symbols i j) (hbegins : symbols <+: symbols') :
    Encloses symbols' i j := by
  induction h with
  | direct hs hcontainer => exact .direct (getElem?_of_isPrefix hbegins hs) hcontainer
  | step hs hcontainer _ ih => exact .step (getElem?_of_isPrefix hbegins hs) hcontainer ih

lemma OnPath.extend {container : Option SymbolId} (h : OnPath symbols container i)
    (hbegins : symbols <+: symbols') : OnPath symbols' container i := by
  obtain ⟨id, hid, hpath⟩ := h
  exact ⟨id, hid, hpath.imp_right fun h => h.extend hbegins⟩

/-- What the container of a symbol is on the path of encloses the symbol. -/
lemma OnPath.encloses {s : Symbol} (h : OnPath symbols s.container i) (hs : symbols[j]? = some s) :
    Encloses symbols i j := by
  obtain ⟨id, hid, rfl | hpath⟩ := h
  · exact .direct hs hid
  · exact .step hs hid hpath

lemma Encloses.onPath {s : Symbol} (h : Encloses symbols i j) (hs : symbols[j]? = some s) :
    OnPath symbols s.container i := by
  cases h with
  | direct hs' hcontainer =>
    cases hs.symm.trans hs'
    exact ⟨⟨i⟩, hcontainer, .inl rfl⟩
  | step hs' hcontainer h =>
    cases hs.symm.trans hs'
    exact ⟨_, hcontainer, .inr h⟩

end Paths

/-- Names of one declaration. -/
def SameDeclaration (s t : Symbol) : Prop :=
  s.byteRange = t.byteRange ∧ s.container = t.container ∧ s.kind = t.kind

/-- How a symbol stands to a later one. -/
structure Precedes (symbols : List Symbol) (i j : Nat) (s t : Symbol) : Prop where
  start_le : s.byteRange.start ≤ t.byteRange.start
  apart : s.byteRange.stop ≤ t.byteRange.start ∨ Encloses symbols i j ∨ SameDeclaration s t

def InOrder (symbols : List Symbol) : Prop :=
  ∀ i j s t, i < j → symbols[i]? = some s → symbols[j]? = some t → Precedes symbols i j s t

/-- Every symbol has ended, unless it is a container of what comes next. -/
def EndedAt (symbols : List Symbol) (container : Option SymbolId) (offset : Nat) : Prop :=
  ∀ i s, symbols[i]? = some s → s.byteRange.start ≤ offset ∧
    (s.byteRange.stop ≤ offset ∨ OnPath symbols container i)

lemma EndedAt.mono {symbols : List Symbol} {container : Option SymbolId} {lo hi : Nat}
    (h : EndedAt symbols container lo) (hle : lo ≤ hi) : EndedAt symbols container hi := by
  intro i s hs
  obtain ⟨hstart, hstop⟩ := h i s hs
  exact ⟨hstart.trans hle, hstop.imp_left fun h => h.trans hle⟩

/-- The table grows in order, by symbols between two offsets. -/
structure Grown (lo hi : Nat) (symbols symbols' : List Symbol) : Prop where
  isPrefix : symbols <+: symbols'
  inOrder : InOrder symbols'
  fresh : ∀ i s, symbols.length ≤ i → symbols'[i]? = some s →
    lo ≤ s.byteRange.start ∧ s.byteRange.start ≤ s.byteRange.stop ∧ s.byteRange.stop ≤ hi

section Grown

variable {symbols symbols' symbols'' : List Symbol} {container : Option SymbolId}
  {lo mid hi : Nat}

lemma Grown.refl (h : InOrder symbols) (lo hi : Nat) : Grown lo hi symbols symbols :=
  ⟨List.prefix_rfl, h, fun i s hi hs => by
    rw [List.getElem?_eq_none hi] at hs
    cases hs⟩

lemma Grown.trans (h : Grown lo mid symbols symbols') (h' : Grown mid hi symbols' symbols'')
    (hlo : lo ≤ mid) (hhi : mid ≤ hi) : Grown lo hi symbols symbols'' := by
  refine ⟨h.isPrefix.trans h'.isPrefix, h'.inOrder, fun i s hi' hs => ?_⟩
  by_cases hold : i < symbols'.length
  · have hs' : symbols'[i]? = some s := by
      have hget := getElem?_of_isPrefix h'.isPrefix (List.getElem?_eq_getElem hold)
      rw [hs] at hget
      rw [List.getElem?_eq_getElem hold, hget]
    obtain ⟨hstart, hle, hstop⟩ := h.fresh i s hi' hs'
    exact ⟨hstart, hle, hstop.trans hhi⟩
  · obtain ⟨hstart, hle, hstop⟩ := h'.fresh i s (Nat.le_of_not_lt hold) hs
    exact ⟨hlo.trans hstart, hle, hstop⟩

lemma Grown.widen (h : Grown lo mid symbols symbols') {lo' : Nat} (hlo : lo' ≤ lo)
    (hhi : mid ≤ hi) : Grown lo' hi symbols symbols' :=
  ⟨h.isPrefix, h.inOrder, fun i s hi' hs =>
    have hfresh := h.fresh i s hi' hs
    ⟨hlo.trans hfresh.1, hfresh.2.1, hfresh.2.2.trans hhi⟩⟩

/-- Behind the new symbols, those in front of them stand as they did. -/
lemma Grown.endedAt (h : Grown lo hi symbols symbols') (hended : EndedAt symbols container lo)
    (hle : lo ≤ hi) : EndedAt symbols' container hi := by
  intro i s hs
  by_cases hold : i < symbols.length
  · have hs' : symbols[i]? = some s := by
      have hget := getElem?_of_isPrefix h.isPrefix (List.getElem?_eq_getElem hold)
      rw [hs] at hget
      rw [List.getElem?_eq_getElem hold, hget]
    obtain ⟨hstart, hstop⟩ := hended i s hs'
    exact ⟨hstart.trans hle, hstop.imp (fun h => h.trans hle) fun hpath => hpath.extend h.isPrefix⟩
  · obtain ⟨-, hle', hstop⟩ := h.fresh i s (Nat.le_of_not_lt hold) hs
    exact ⟨hle'.trans hstop, .inl hstop⟩

/-- The names of one declaration are pushed. -/
lemma grown_append {news : List Symbol} {range : ByteRange} {kind : SymbolKind}
    (horder : InOrder symbols) (hended : EndedAt symbols container lo) (hlo : lo ≤ range.start)
    (hrange : range.start ≤ range.stop)
    (hnews : ∀ s ∈ news, s.byteRange = range ∧ s.container = container ∧ s.kind = kind) :
    Grown range.start range.stop symbols (symbols ++ news) := by
  have hnew {i : Nat} {s : Symbol} (hi : symbols.length ≤ i) (hs : (symbols ++ news)[i]? = some s) :
      s.byteRange = range ∧ s.container = container ∧ s.kind = kind := by
    rw [List.getElem?_append_right hi] at hs
    exact hnews s (List.mem_of_getElem? hs)
  have hbegins : symbols <+: symbols ++ news := List.prefix_append _ _
  refine ⟨hbegins, fun i j s t hij hs ht => ?_, fun i s hi hs => ?_⟩
  · by_cases hj : j < symbols.length
    · rw [List.getElem?_append_left (hij.trans hj)] at hs
      rw [List.getElem?_append_left hj] at ht
      obtain ⟨hstart, hapart⟩ := horder i j s t hij hs ht
      exact ⟨hstart, hapart.imp_right fun h => h.imp_left fun h => h.extend hbegins⟩
    · obtain ⟨htrange, htcontainer, htkind⟩ := hnew (Nat.le_of_not_lt hj) ht
      by_cases hi : i < symbols.length
      · rw [List.getElem?_append_left hi] at hs
        obtain ⟨hstart, hstop⟩ := hended i s hs
        rw [← htcontainer] at hstop
        rw [← htrange] at hlo
        exact ⟨hstart.trans hlo, hstop.imp (fun h => h.trans hlo) fun hpath =>
          .inl ((hpath.extend hbegins).encloses ht)⟩
      · obtain ⟨hsrange, hscontainer, hskind⟩ := hnew (Nat.le_of_not_lt hi) hs
        have hsame : SameDeclaration s t := ⟨hsrange.trans htrange.symm,
          hscontainer.trans htcontainer.symm, hskind.trans htkind.symm⟩
        exact ⟨Nat.le_of_eq (congrArg ByteRange.start hsame.1), .inr (.inr hsame)⟩
  · obtain ⟨hsrange, -, -⟩ := hnew hi hs
    rw [hsrange]
    exact ⟨Nat.le_refl _, hrange, Nat.le_refl _⟩

end Grown

section Declarations

variable {symbols : List Symbol} {node : SyntaxNode} {container : Option SymbolId} {lo : Nat}

lemma grown_visitVarDecl (kind : SymbolKind) (horder : InOrder symbols)
    (hended : EndedAt symbols container lo) (hlo : lo ≤ node.range.start) (hrange : node.range.start ≤ node.range.stop)
    (annotations : List Annotation) :
    Grown node.range.start node.range.stop symbols
      (visitVarDecl symbols node container annotations kind) := by
  obtain ⟨spec, names, hcontainer, -, hfold⟩ :=
    visitVarDecl_eq_foldl node container annotations kind
  have hnews : ∃ news, names.foldl (fun symbols name => pushSymbol symbols node name kind spec)
      symbols = symbols ++ news ∧ ∀ s ∈ news, s.byteRange = node.range ∧
        s.container = container ∧ s.kind = kind := by
    clear hfold horder hended
    induction names generalizing symbols with
    | nil => exact ⟨[], (List.append_nil _).symm, fun s hs => by cases hs⟩
    | cons name names ih =>
      obtain ⟨news, hfold, hnews⟩ := @ih (pushSymbol symbols node name kind spec)
      refine ⟨newSymbol symbols node name kind spec :: news, ?_, fun s hs => ?_⟩
      · rw [List.foldl_cons, hfold, pushSymbol, List.append_assoc, List.singleton_append]
      · rcases List.mem_cons.mp hs with rfl | hs
        · exact ⟨rfl, hcontainer, rfl⟩
        · exact hnews s hs
  obtain ⟨news, heq, hall⟩ := hnews
  rw [hfold, heq]
  exact grown_append horder hended hlo hrange hall

lemma grown_pushSymbol (nameNode : SyntaxNode) (kind : SymbolKind) {spec : SymbolSpec}
    (horder : InOrder symbols) (hended : EndedAt symbols spec.container lo)
    (hlo : lo ≤ node.range.start) (hrange : node.range.start ≤ node.range.stop) :
    Grown node.range.start node.range.stop symbols (pushSymbol symbols node nameNode kind spec) := by
  have hnew : ∀ s ∈ [newSymbol symbols node nameNode kind spec], s.byteRange = node.range ∧
      s.container = spec.container ∧ s.kind = kind := by
    intro s hs
    rw [List.mem_singleton.mp hs]
    exact ⟨rfl, rfl, rfl⟩
  exact grown_append horder hended hlo hrange hnew

/-- In a new container, the containers around it are still open. -/
lemma endedAt_pushSymbol (nameNode : SyntaxNode) (kind : SymbolKind) {spec : SymbolSpec}
    (hended : EndedAt symbols spec.container lo)
    (hlo : lo ≤ node.range.start) :
    EndedAt (pushSymbol symbols node nameNode kind spec) (some ⟨symbols.length⟩)
      node.range.start := by
  have hbegins : symbols <+: pushSymbol symbols node nameNode kind spec := isPrefix_pushSymbol
  intro i s hs
  by_cases hold : i < symbols.length
  · rw [pushSymbol, List.getElem?_append_left hold] at hs
    obtain ⟨hstart, hstop⟩ := hended i s hs
    refine ⟨hstart.trans hlo, hstop.imp (fun h => h.trans hlo) fun hpath => ?_⟩
    exact ⟨_, rfl, .inr ((hpath.extend hbegins).encloses getElem?_pushSymbol_length)⟩
  · rw [pushSymbol, List.getElem?_append_right (Nat.le_of_not_lt hold),
      List.getElem?_singleton] at hs
    split_ifs at hs with hi
    cases hs
    have hlast : i = symbols.length := by omega
    exact ⟨Nat.le_refl _, .inr ⟨_, rfl, .inl hlast⟩⟩

lemma IsBody.ordered {body : List SyntaxNode} (h : IsBody node body) (hordered : node.Ordered) :
    ∀ child ∈ body, child.Ordered := by
  intro child hchild
  obtain rfl | ⟨block, hblock, -, rfl⟩ := h
  · cases hchild
  · exact (hordered.children block hblock).children child hchild

/-- The parameter groups of a callable. -/
lemma grown_groups {groups : List SyntaxNode} {id : SymbolId} {hi : Nat}
    (hordered : ∀ group ∈ groups, group.Ordered) (hlined : Lined lo groups hi)
    (horder : InOrder symbols) (hended : EndedAt symbols (some id) lo) :
    Grown lo hi symbols (groups.foldl (fun symbols group =>
      visitVarDecl symbols group (some id) [] .parameter) symbols) := by
  induction groups generalizing symbols lo with
  | nil => exact Grown.refl horder lo hi
  | cons group groups ih =>
    obtain ⟨hstart, hstop⟩ := hlined.within group List.mem_cons_self
    have hrange := (hordered group List.mem_cons_self).start_le_stop
    have hgroup := grown_visitVarDecl .parameter horder hended hstart hrange []
    have hrest := ih (fun g hg => hordered g (List.mem_cons_of_mem _ hg)) hlined.tail
      hgroup.inOrder (hgroup.endedAt (hended.mono hstart) hrange)
    exact (hgroup.trans hrest hrange hstop).widen hstart (Nat.le_refl _)

/-- The parameters of a callable end in front of its body. -/
lemma exists_grown_visitParams (hordered : node.Ordered) (hnested : node.Nested)
    (henters : node.EntersCallable) {id : SymbolId} {body : List SyntaxNode} (hbody : IsBody node body) (horder : InOrder symbols)
    (hended : EndedAt symbols (some id) node.range.start) :
    ∃ mid, node.range.start ≤ mid ∧ Lined mid body node.range.stop ∧
      Grown node.range.start mid symbols (visitParams symbols node id) := by
  have hlined : ∀ mid, node.range.start ≤ mid → mid ≤ node.range.stop →
      (∀ block ∈ node.children, block.kind = .funcBlock → mid ≤ block.range.start) →
      Lined mid body node.range.stop := by
    intro mid hmid hle hblocks
    obtain rfl | ⟨block, hblock, hkind, rfl⟩ := hbody
    · exact ⟨hle, fun n hn => absurd hn List.not_mem_nil, List.Pairwise.nil⟩
    · have hchildren := lined_children (hordered.children block hblock)
        (hnested.children block hblock)
      have hfrom := hblocks block hblock hkind
      have hto := (hnested.inside block hblock).2
      exact ⟨hle, fun n hn => ⟨hfrom.trans (hchildren.within n hn).1,
        (hchildren.within n hn).2.trans hto⟩, hchildren.successive⟩
  unfold visitParams
  cases hparams : node.firstChildKind .funcParams with
  | none =>
    exact ⟨node.range.start, Nat.le_refl _, hlined _ (Nat.le_refl _) hordered.start_le_stop
      fun block hblock _ => (hnested.inside block hblock).1, Grown.refl horder _ _⟩
  | some params =>
    have hmem := SyntaxNode.mem_of_firstChildKind hparams
    have hinside := hnested.inside params hmem
    have hparamsOrdered := hordered.children params hmem
    have hgroups := (lined_children hparamsOrdered (hnested.children params hmem)).sublist
      (@List.filter_sublist _ (fun child => decide (child.kind = .funcParamGroup)) _)
    have hgrown := grown_groups (fun group hgroup =>
      hparamsOrdered.children group (List.mem_filter.mp hgroup).1) hgroups horder
      (hended.mono hinside.1)
    exact ⟨params.range.stop, hinside.1.trans hparamsOrdered.start_le_stop,
      hlined _ (hinside.1.trans hparamsOrdered.start_le_stop) hinside.2
        fun block hblock hkind => hordered.paramsFirst henters hparams hblock hkind,
      hgrown.widen hinside.1 (Nat.le_refl _)⟩

end Declarations

/-- A node takes the table to an inner one; the next nodes begin where it ends. -/
lemma Grown.next {container : Option SymbolId} {node : SyntaxNode} {nodes : List SyntaxNode}
    {symbols inner final : List Symbol} {lo hi : Nat} (hordered : ∀ n ∈ node :: nodes, n.Ordered)
    (hnested : ∀ n ∈ node :: nodes, n.Nested) (hlined : Lined lo (node :: nodes) hi)
    (hended : EndedAt symbols container lo)
    (hnode : Grown node.range.start node.range.stop symbols inner)
    (ih : ∀ {lo hi}, (∀ n ∈ nodes, n.Ordered) → (∀ n ∈ nodes, n.Nested) → Lined lo nodes hi →
      InOrder inner → EndedAt inner container lo → Grown lo hi inner final) :
    Grown lo hi symbols final := by
  obtain ⟨hstart, hstop⟩ := hlined.within node List.mem_cons_self
  have hrange := (hordered node List.mem_cons_self).start_le_stop
  have hafter := ih (fun n hn => hordered n (List.mem_cons_of_mem _ hn))
    (fun n hn => hnested n (List.mem_cons_of_mem _ hn)) hlined.tail hnode.inOrder
    (hnode.endedAt (hended.mono hstart) hrange)
  exact (hnode.trans hafter hrange hstop).widen hstart (Nat.le_refl _)

/-- A container is pushed, and then symbols inside of it. -/
lemma Grown.inside {node nameNode : SyntaxNode} {kind : SymbolKind} {spec : SymbolSpec}
    {symbols inner : List Symbol} (hrange : node.range.start ≤ node.range.stop)
    (hinner : Grown node.range.start node.range.stop (pushSymbol symbols node nameNode kind spec)
      inner) : Grown node.range.start node.range.stop symbols inner := by
  refine ⟨isPrefix_pushSymbol.trans hinner.isPrefix, hinner.inOrder, fun i s hi hs => ?_⟩
  by_cases hnew : i = symbols.length
  · have hget := getElem?_of_isPrefix hinner.isPrefix
      (@getElem?_pushSymbol_length symbols node nameNode kind spec)
    rw [hnew, hget] at hs
    cases hs
    exact ⟨Nat.le_refl _, hrange, Nat.le_refl _⟩
  · refine hinner.fresh i s ?_ hs
    rw [pushSymbol, List.length_append, List.length_singleton]
    omega

/-- What extraction makes of nodes that follow each other. -/
theorem Extracts.grown {container : Option SymbolId} {nodes : List SyntaxNode}
    {symbols final : List Symbol} (h : Extracts container nodes symbols final) {lo hi : Nat}
    (hordered : ∀ node ∈ nodes, node.Ordered) (hnested : ∀ node ∈ nodes, node.Nested)
    (hlined : Lined lo nodes hi) (horder : InOrder symbols)
    (hended : EndedAt symbols container lo) : Grown lo hi symbols final := by
  induction h generalizing lo hi with
  | done container symbols => exact Grown.refl horder lo hi
  | @skip container node nodes symbols final rest ih =>
    exact ih (fun n hn => hordered n (List.mem_cons_of_mem _ hn))
      (fun n hn => hnested n (List.mem_cons_of_mem _ hn))
      (hlined.sublist (List.sublist_cons_self node nodes)) horder hended
  | @names container node nodes symbols final annotations kind hkind rest ih =>
    have hnode := grown_visitVarDecl kind horder hended
      (hlined.within node List.mem_cons_self).1 (hordered node List.mem_cons_self).start_le_stop
      annotations
    exact hnode.next hordered hnested hlined hended ih
  | @enumMember container node nameNode nodes symbols final hname rest ih =>
    have hnode := @grown_pushSymbol symbols node lo nameNode .enumMember { container } horder hended
      (hlined.within node List.mem_cons_self).1 (hordered node List.mem_cons_self).start_le_stop
    exact hnode.next hordered hnested hlined hended ih
  | @within container node nodes symbols inner final below rest ihbelow ihrest =>
    have hself := hordered node List.mem_cons_self
    have hself' := hnested node List.mem_cons_self
    have hnode := ihbelow hself.children hself'.children (lined_children hself hself') horder
      (hended.mono (hlined.within node List.mem_cons_self).1)
    exact hnode.next hordered hnested hlined hended ihrest
  | @type container node nameNode nodes symbols inner final kind spec hname hkind hspec below rest
      ihbelow ihrest =>
    subst hspec
    have hself := hordered node List.mem_cons_self
    have hself' := hnested node List.mem_cons_self
    have hstart := (hlined.within node List.mem_cons_self).1
    have hpush := grown_pushSymbol nameNode kind horder hended hstart hself.start_le_stop
    have hmembers := ihbelow hself.children hself'.children (lined_children hself hself')
      hpush.inOrder (endedAt_pushSymbol nameNode kind hended hstart)
    exact (hmembers.inside hself.start_le_stop).next hordered hnested hlined hended ihrest
  | @callable container node nameNode nodes body symbols inner final kind spec hname henters hkind
      hspec hbody below rest ihbelow ihrest =>
    subst hspec
    have hself := hordered node List.mem_cons_self
    have hself' := hnested node List.mem_cons_self
    have hstart := (hlined.within node List.mem_cons_self).1
    have hpush := grown_pushSymbol nameNode kind horder hended hstart hself.start_le_stop
    have hopen := endedAt_pushSymbol nameNode kind hended hstart
    obtain ⟨mid, hmid, hbodyLined, hparams⟩ :=
      exists_grown_visitParams hself hself' henters hbody hpush.inOrder hopen
    have hlocals := ihbelow (hbody.ordered hself) (fun n hn => (hbody.nested hself' n hn).1)
      hbodyLined hparams.inOrder (hparams.endedAt hopen hmid)
    have hinner := hparams.trans hlocals hmid hbodyLined.le
    exact (hinner.inside hself.start_le_stop).next hordered hnested hlined hended ihrest

/-- The table of a tree whose nodes follow each other is in order. -/
theorem inOrder_extractSymbols {root : SyntaxNode} (hordered : root.Ordered)
    (hnested : root.Nested) : InOrder (extractSymbols root) :=
  ((extracts_extractSymbols root).grown hordered.children hnested.children
    (lined_children hordered hnested) (fun _ _ _ _ _ hs => by cases hs)
    fun _ _ hs => by cases hs).inOrder

end WitcherScriptLanguage
