import WitcherScriptLanguage.Formatter.SourceText

/-!
# The layout toggle of a `switch`

The statements of an arm are joined onto the line of its label, or split onto lines of their own
(`formatter/switch_action.rs`, `formatter/statements/switch.rs`). The offer looks at one arm with
comments in mind, the rewriting at every arm without.
-/

namespace WitcherScriptLanguage

open Library

inductive SwitchChild (L S : Type)
  | label (l : L)
  | stmt (s : S)

/-- Labels, of which there is more than one for a fall-through, and the statements behind them. -/
structure SwitchArm (L S : Type) where
  labels : List L
  stmts : List S

def SwitchArm.children {L S : Type} (arm : SwitchArm L S) : List (SwitchChild L S) :=
  arm.labels.map .label ++ arm.stmts.map .stmt

section Collect

variable {L S : Type}

/-- A label behind statements closes the arm. -/
def collectChild (arms : List (SwitchArm L S) × Option (SwitchArm L S)) :
    SwitchChild L S → List (SwitchArm L S) × Option (SwitchArm L S)
  | .label l =>
    match arms.2 with
    | none => (arms.1, some ⟨[l], []⟩)
    | some arm =>
      if arm.stmts.isEmpty then (arms.1, some ⟨arm.labels ++ [l], arm.stmts⟩)
      else (arms.1 ++ [arm], some ⟨[l], []⟩)
  | .stmt s =>
    let arm := arms.2.getD ⟨[], []⟩
    (arms.1, some ⟨arm.labels, arm.stmts ++ [s]⟩)

def collectSwitchArms (children : List (SwitchChild L S)) : List (SwitchArm L S) :=
  let arms := children.foldl collectChild ([], none)
  arms.1 ++ arms.2.toList

lemma flatMap_collectChild (arms : List (SwitchArm L S)) (current : Option (SwitchArm L S))
    (child : SwitchChild L S) :
    let next := collectChild (arms, current) child
    (next.1 ++ next.2.toList).flatMap SwitchArm.children =
      (arms ++ current.toList).flatMap SwitchArm.children ++ [child] := by
  cases child with
  | stmt s =>
    cases current with
    | none => simp [collectChild, SwitchArm.children]
    | some arm => simp [collectChild, SwitchArm.children]
  | label l =>
    cases current with
    | none => simp [collectChild, SwitchArm.children]
    | some arm =>
      by_cases hstmts : arm.stmts = []
      · simp [collectChild, SwitchArm.children, hstmts]
      · simp [collectChild, SwitchArm.children, hstmts]

/-- The arms are the children in their order. -/
theorem flatMap_collectSwitchArms (children : List (SwitchChild L S)) :
    (collectSwitchArms children).flatMap SwitchArm.children = children := by
  suffices h : ∀ (arms : List (SwitchArm L S)) (current : Option (SwitchArm L S)),
      let collected := children.foldl collectChild (arms, current)
      (collected.1 ++ collected.2.toList).flatMap SwitchArm.children =
        (arms ++ current.toList).flatMap SwitchArm.children ++ children from h [] none
  induction children with
  | nil => exact fun arms current => (List.append_nil _).symm
  | cons child children ih =>
    intro arms current
    have hnext := ih (collectChild (arms, current) child).1 (collectChild (arms, current) child).2
    have hchild := flatMap_collectChild arms current child
    dsimp only at hnext hchild ⊢
    rw [List.foldl_cons, hnext, hchild, List.append_assoc, List.singleton_append]

end Collect

structure SwitchLabel where
  chunk : Chunk
  colon : chunk.last = [':']

abbrev LabelNode : Type := Lead × SwitchLabel

abbrev StmtNode : Type := Lead × StmtText

abbrev Arm : Type := SwitchArm LabelNode StmtNode

def labelsPlaced (labels : List LabelNode) : List (Placed Char) :=
  labels.flatMap fun label => label.1.placed label.2.chunk

def stmtsPlaced (stmts : List StmtNode) : List (Placed Char) :=
  stmts.flatMap fun stmt => stmt.1.placed stmt.2.chunk

def childPlaced : SwitchChild LabelNode StmtNode → List (Placed Char)
  | .label label => label.1.placed label.2.chunk
  | .stmt stmt => stmt.1.placed stmt.2.chunk

def Arm.placed (arm : Arm) : List (Placed Char) := labelsPlaced arm.labels ++ stmtsPlaced arm.stmts

structure SwitchStmt where
  /-- The keyword and the condition in its brackets. -/
  head : Chunk
  openLead : Lead
  children : List (SwitchChild LabelNode StmtNode)
  closeLead : Lead

/-- The lexemes of a child without what stands in front of it. -/
def childLexemes : SwitchChild LabelNode StmtNode →
    SwitchChild (List (List Char)) (StmtKind × List (List Char))
  | .label label => .label (lexemesOf (label.2.chunk.placed []))
  | .stmt stmt => .stmt (stmt.2.kind, lexemesOf (stmt.2.chunk.placed []))

/-- The statements that are run from an arm on: those of the arms behind it as well, up to the first
`break`. -/
def runsFrom {L S : Type} (arms : List (SwitchArm L (StmtKind × S))) (k : Nat) : List S :=
  (((arms.drop k).flatMap SwitchArm.stmts).takeWhile fun stmt => stmt.1 != .breakStmt).map Prod.snd

namespace SwitchStmt

def openPlaced (sw : SwitchStmt) : List (Placed Char) :=
  sw.head.placed [] ++ sw.openLead.placed (.single ['{'])

def closePlaced (sw : SwitchStmt) : List (Placed Char) := sw.closeLead.placed (.single ['}'])

def layout (sw : SwitchStmt) : List (Placed Char) :=
  sw.openPlaced ++ (sw.children.flatMap childPlaced ++ sw.closePlaced)

def text (sw : SwitchStmt) : List Char := textOf sw.layout

def arms (sw : SwitchStmt) : List Arm := collectSwitchArms sw.children

def outline (sw : SwitchStmt) : List (SwitchArm (List (List Char)) (StmtKind × List (List Char))) :=
  collectSwitchArms (sw.children.map childLexemes)

/-- The text is read as a switch with the same lexemes, comments among them, the same arms and the
same statements from each of them on. -/
structure Reads (sw : SwitchStmt) (text : List Char) (sw' : SwitchStmt) : Prop where
  text_eq : sw'.text = text
  spells : scriptLexis.Spells sw'.layout
  lexemes : lexemesOf sw'.layout = lexemesOf sw.layout
  outline : sw'.outline = sw.outline
  runs : ∀ k, runsFrom sw'.outline k = runsFrom sw.outline k

def Preserves (sw : SwitchStmt) (text : List Char) : Prop := ∃ sw', sw.Reads text sw'

end SwitchStmt

inductive SwitchLayout
  | collapse | expand
  deriving DecidableEq, Repr

structure SwitchToggle where
  canCollapse : Bool
  canExpand : Bool
  deriving DecidableEq, Repr

def newlines (text : List Char) : Nat := text.count '\n'

/-- The first and the last row of each statement. -/
def stmtRows (row : Nat) : List StmtNode → List (Nat × Nat)
  | [] => []
  | (lead, stmt) :: stmts =>
    let start := row + newlines lead.text
    let stop := start + newlines stmt.chunk.text
    (start, stop) :: stmtRows stop stmts

/-- The last label and all statements are on one row. Rows are counted from where the label
starts. -/
def armIsInline (arm : Arm) : Bool :=
  match arm.labels.getLast? with
  | none => false
  | some label =>
    let row := newlines label.2.chunk.text
    row == 0 && (stmtRows row arm.stmts).all fun rows => rows.1 == 0 && rows.2 == 0

def nonBreak (arm : Arm) : Nat := arm.stmts.countP fun stmt => stmt.2.kind != .breakStmt

/-- From the start of the first label or statement to the end of the last. -/
def armSpan (arm : Arm) : List (Placed Char) :=
  match arm.labels, arm.stmts with
  | label :: labels, stmts => label.2.chunk.placed [] ++ (labelsPlaced labels ++ stmtsPlaced stmts)
  | [], stmt :: stmts => stmt.2.chunk.placed [] ++ stmtsPlaced stmts
  | [], [] => []

def armHasInteriorComment (arm : Arm) : Bool := (armSpan arm).any fun p => isComment p.lexeme

def armStructurallyInline (arm : Arm) : Bool :=
  !arm.stmts.isEmpty && armIsInline arm && nonBreak arm ≤ 1 && !armHasInteriorComment arm

def collapsibleArm (arm : Arm) : Bool :=
  (arm.labels.getLast?).any (fun label => label.2.chunk.singleLine) &&
    arm.stmts.all (fun stmt => stmt.2.chunk.singleLine) && nonBreak arm ≤ 1 &&
    !armHasInteriorComment arm

def switchCollapseFits (ctx : LayoutCtx) (arms : List Arm) : Bool :=
  let indent := (ctx.level + 1) * ctx.indentWidth
  arms.all fun arm =>
    match arm.labels.getLast? with
    | none => true
    | some label =>
      indent + utf8Bytes label.2.chunk.text +
        (arm.stmts.map fun stmt => 1 + utf8Bytes stmt.2.chunk.text).sum ≤ ctx.lineLimit

def switchToggle (ctx : LayoutCtx) (sw : SwitchStmt) : SwitchToggle :=
  let stmtArms := sw.arms.filter fun arm => !arm.stmts.isEmpty
  let allCollapsible := stmtArms.all collapsibleArm
  { canCollapse := allCollapsible && (allCollapsible && switchCollapseFits ctx stmtArms) &&
      stmtArms.any fun arm => !armStructurallyInline arm
    canExpand := stmtArms.any armStructurallyInline }

def SwitchToggle.offers (toggle : SwitchToggle) : SwitchLayout → Bool
  | .collapse => toggle.canCollapse
  | .expand => toggle.canExpand

/-- What is put in front of every statement of an arm. -/
def stmtGap (base unit : List Char) : SwitchLayout → List Char
  | .collapse => [' ']
  | .expand => '\n' :: (base ++ unit ++ unit)

/-- The statements of the arm are moved. -/
def armMoves (layout : SwitchLayout) (arm : Arm) : Bool :=
  !arm.labels.isEmpty && !arm.stmts.isEmpty && armIsInline arm == (layout == .expand)

/-- The text from the end of the last label to the end of the last statement. -/
def armSubstitution (layout : SwitchLayout) (base unit : List Char) (arm : Arm) :
    Option (List Char) :=
  if armMoves layout arm then
    some (arm.stmts.flatMap fun stmt => stmtGap base unit layout ++ stmt.2.chunk.text)
  else none

def armSegment (subst : Arm → Option (List Char)) (arm : Arm) : Segment Char :=
  ⟨textOf (labelsPlaced arm.labels), textOf (stmtsPlaced arm.stmts), subst arm⟩

def SwitchStmt.segments (subst : Arm → Option (List Char)) (sw : SwitchStmt) :
    List (Segment Char) :=
  ⟨textOf sw.openPlaced, [], none⟩ :: sw.arms.map (armSegment subst)

/-- The switch in a source, between what stands in front of it and behind it. -/
def rewriteSwitchLayout (front : List Char) (sw : SwitchStmt) (back : List Char)
    (options : FormatOptions) (layout : SwitchLayout) : List Char :=
  let source := front ++ (sw.text ++ back)
  let start := utf8Bytes front
  let base := lineIndent source start
  let subst := armSubstitution layout base (indentUnitFor options)
  spliceSubs sizeOfChar source start (start + utf8Bytes sw.text)
    (subsFrom sizeOfChar start (sw.segments subst))

def SwitchStmt.mapArms (f : Arm → Arm) (sw : SwitchStmt) : SwitchStmt :=
  { sw with children := sw.arms.flatMap fun arm => (f arm).children }

/-- The same statements with other blanks, and nothing else, in front of each. -/
def respaced (gap : List Char) (stmts : List StmtNode) : List StmtNode :=
  stmts.map fun stmt => (.blanks gap, stmt.2)

/-- The arm that the substitution spells. -/
def Arm.relaid (layout : SwitchLayout) (base unit : List Char) (arm : Arm) : Arm :=
  if armMoves layout arm then ⟨arm.labels, respaced (stmtGap base unit layout) arm.stmts⟩ else arm

lemma flatMap_childPlaced_children (arm : Arm) : arm.children.flatMap childPlaced = arm.placed := by
  rw [SwitchArm.children, List.flatMap_append, List.flatMap_map, List.flatMap_map]
  rfl

lemma SwitchStmt.children_eq (sw : SwitchStmt) : sw.children = sw.arms.flatMap SwitchArm.children :=
  (flatMap_collectSwitchArms sw.children).symm

lemma SwitchStmt.layout_eq (sw : SwitchStmt) :
    sw.layout = sw.openPlaced ++ (sw.arms.flatMap Arm.placed ++ sw.closePlaced) := by
  rw [layout, children_eq, List.flatMap_assoc]
  simp only [flatMap_childPlaced_children]

lemma SwitchStmt.layout_mapArms (f : Arm → Arm) (sw : SwitchStmt) : (sw.mapArms f).layout =
    sw.openPlaced ++ (sw.arms.flatMap (fun arm => (f arm).placed) ++ sw.closePlaced) := by
  rw [layout, mapArms, List.flatMap_assoc]
  simp only [flatMap_childPlaced_children]
  rfl

section Relaid

variable {layout : SwitchLayout} {base unit : List Char}

lemma textOf_respaced (gap : List Char) (stmts : List StmtNode) :
    textOf (stmtsPlaced (respaced gap stmts)) =
      stmts.flatMap fun stmt => gap ++ stmt.2.chunk.text := by
  induction stmts with
  | nil => rfl
  | cons stmt stmts ih =>
    have hcons : stmtsPlaced (respaced gap (stmt :: stmts)) =
        (Lead.blanks gap).placed stmt.2.chunk ++ stmtsPlaced (respaced gap stmts) := rfl
    rw [hcons, textOf_append, ih, Lead.textOf_placed, List.flatMap_cons]
    rfl

lemma Arm.textOf_relaid (arm : Arm) : textOf (arm.relaid layout base unit).placed =
    textOf (labelsPlaced arm.labels) ++
      (armSubstitution layout base unit arm).getD (textOf (stmtsPlaced arm.stmts)) := by
  rw [relaid, armSubstitution]
  cases armMoves layout arm with
  | false => exact textOf_append _ _
  | true =>
    rw [if_pos rfl, if_pos rfl, Arm.placed, textOf_append, textOf_respaced]
    rfl

lemma SwitchStmt.flatMap_before (subst : Arm → Option (List Char)) (sw : SwitchStmt) :
    (sw.segments subst).flatMap Segment.before ++ textOf sw.closePlaced = sw.text := by
  have harms : (sw.arms.map (armSegment subst)).flatMap Segment.before =
      textOf (sw.arms.flatMap Arm.placed) := by
    induction sw.arms with
    | nil => rfl
    | cons arm arms ih =>
      rw [List.map_cons, List.flatMap_cons, List.flatMap_cons, textOf_append, ih, Arm.placed,
        textOf_append]
      rfl
  rw [segments, List.flatMap_cons, harms, text, layout_eq, textOf_append, textOf_append,
    Segment.before, List.append_nil, List.append_assoc]

lemma SwitchStmt.flatMap_after (sw : SwitchStmt) :
    (sw.segments (armSubstitution layout base unit)).flatMap Segment.after ++
      textOf sw.closePlaced = (sw.mapArms (Arm.relaid layout base unit)).text := by
  have harms : (sw.arms.map (armSegment (armSubstitution layout base unit))).flatMap Segment.after =
      textOf (sw.arms.flatMap fun arm => (arm.relaid layout base unit).placed) := by
    induction sw.arms with
    | nil => rfl
    | cons arm arms ih =>
      rw [List.map_cons, List.flatMap_cons, List.flatMap_cons, textOf_append, ih, Arm.textOf_relaid]
      rfl
  rw [segments, List.flatMap_cons, harms, text, layout_mapArms, textOf_append, textOf_append,
    Segment.after, Option.getD_none, List.append_nil, List.append_assoc]

end Relaid

/-- The rewritten text spells the switch with its statements moved. -/
lemma rewriteSwitchLayout_eq (front : List Char) (sw : SwitchStmt) (back : List Char)
    (options : FormatOptions) (layout : SwitchLayout) :
    rewriteSwitchLayout front sw back options layout =
      (sw.mapArms (Arm.relaid layout (lineIndent (front ++ (sw.text ++ back)) (utf8Bytes front))
        (indentUnitFor options))).text := by
  have hpos : ∀ c, 0 < sizeOfChar c := Char.utf8Size_pos
  have hsplice := spliceSubs_segments hpos front back (textOf sw.closePlaced)
    (sw.segments (armSubstitution layout (lineIndent (front ++ (sw.text ++ back)) (utf8Bytes front))
      (indentUnitFor options)))
  rw [SwitchStmt.flatMap_before, SwitchStmt.flatMap_after] at hsplice
  exact hsplice

section Moved

variable {gap : List Char} {stmts : List StmtNode}

lemma lexemesOf_respaced (h : ∀ stmt ∈ stmts, stmt.1.comments = []) :
    lexemesOf (stmtsPlaced (respaced gap stmts)) = lexemesOf (stmtsPlaced stmts) := by
  induction stmts with
  | nil => rfl
  | cons stmt stmts ih =>
    have hcons : stmtsPlaced (respaced gap (stmt :: stmts)) =
        stmt.2.chunk.placed gap ++ stmtsPlaced (respaced gap stmts) := rfl
    have hcons' : stmtsPlaced (stmt :: stmts) =
        stmt.2.chunk.placed stmt.1.gap ++ stmtsPlaced stmts := by
      rw [stmtsPlaced, List.flatMap_cons, Lead.placed, h stmt List.mem_cons_self, List.nil_append]
      rfl
    have hrest := ih fun s hs => h s (List.mem_cons_of_mem stmt hs)
    rw [hcons, hcons', lexemesOf_append, lexemesOf_append, hrest]
    rfl

/-- The blanks are put in front of one statement after the other. -/
lemma spells_respaced (hgap : ∀ c ∈ gap, isWhitespace c = true)
    (hbare : ∀ stmt ∈ stmts, stmt.1.comments = [])
    (hapart : ∀ stmt ∈ stmts, ∀ next, KeepsApart stmt.2.chunk.last gap next)
    (front back : List (Placed Char))
    (hfront : ∀ p ∈ front.getLast?, ∀ next, KeepsApart p.lexeme gap next)
    (h : scriptLexis.Spells (front ++ (stmtsPlaced stmts ++ back))) :
    scriptLexis.Spells (front ++ (stmtsPlaced (respaced gap stmts) ++ back)) := by
  induction stmts generalizing front with
  | nil => exact h
  | cons stmt stmts ih =>
    have hplaced : stmtsPlaced (stmt :: stmts) ++ back =
        stmt.2.chunk.placed stmt.1.gap ++ (stmtsPlaced stmts ++ back) := by
      rw [stmtsPlaced, List.flatMap_cons, Lead.placed, hbare stmt List.mem_cons_self,
        List.nil_append, List.append_assoc]
      rfl
    have hgoal : front ++ (stmtsPlaced (respaced gap (stmt :: stmts)) ++ back) =
        (front ++ stmt.2.chunk.placed gap) ++ (stmtsPlaced (respaced gap stmts) ++ back) := by
      simp [respaced, stmtsPlaced, Lead.placed, Lead.blanks]
    rw [hplaced] at h
    obtain ⟨hfrontSpells, hrest, -⟩ := Lexis.spells_append.mp h
    obtain ⟨hstmt, hback, hseam⟩ := Lexis.spells_append.mp hrest
    have hlast : ∀ gap', (stmt.2.chunk.placed gap').getLast?.map Placed.lexeme =
        some stmt.2.chunk.last := fun gap' => Lead.getLast?_placed (.blanks gap') stmt.2.chunk
    rw [hgoal]
    refine ih (fun s hs => hbare s (List.mem_cons_of_mem stmt hs))
      (fun s hs => hapart s (List.mem_cons_of_mem stmt hs)) _ (fun p hp next => ?_) ?_
    · have hne : stmt.2.chunk.placed gap ≠ [] := List.cons_ne_nil _ _
      have hlexeme := hlast gap
      rw [List.getLast?_append_of_ne_nil _ hne] at hp
      rw [hp] at hlexeme
      rw [show p.lexeme = stmt.2.chunk.last from Option.some.inj hlexeme]
      exact hapart stmt List.mem_cons_self next
    · rw [List.append_assoc]
      have hregap : scriptLexis.Spells
          (stmt.2.chunk.placed gap ++ (stmtsPlaced stmts ++ back)) := by
        refine Lexis.spells_append.mpr ⟨hstmt.regap hgap, hback, fun p hp q hq => ?_⟩
        -- The last lexeme of the statement is the one that it was.
        obtain ⟨p', hp', hlexeme'⟩ := Option.map_eq_some_iff.mp (hlast stmt.1.gap)
        have hlexeme := hlast gap
        rw [hp] at hlexeme
        have hsame : p.lexeme = p'.lexeme := (Option.some.inj hlexeme).trans hlexeme'.symm
        have hold := hseam p' hp' q hq
        rw [Lexis.KeepsApart] at hold ⊢
        rwa [hsame]
      refine Lexis.spells_append.mpr ⟨hfrontSpells, hregap, ?_⟩
      rintro p hp q ⟨⟩
      exact hfront p hp _

lemma countP_solid_respaced (hgap : ∀ c ∈ gap, isWhitespace c = true)
    (hok : ∀ p ∈ stmtsPlaced stmts, scriptLexis.Ok p) :
    (textOf (stmtsPlaced stmts)).countP scriptLexis.solid =
      (textOf (stmtsPlaced (respaced gap stmts))).countP scriptLexis.solid +
        (stmts.map fun stmt => (textOf stmt.1.comments).countP scriptLexis.solid).sum := by
  induction stmts with
  | nil => rfl
  | cons stmt stmts ih =>
    have hrest := ih fun p hp => hok p (List.mem_append_right _ hp)
    have hhead : scriptLexis.Ok ⟨stmt.1.gap, stmt.2.chunk.head⟩ :=
      hok _ (List.mem_append_left _ (List.mem_append_right _ List.mem_cons_self))
    have hold : stmt.1.gap.countP scriptLexis.solid = 0 := countP_solid_eq_zero hhead.blank
    have hnew : gap.countP scriptLexis.solid = 0 := countP_solid_eq_zero hgap
    rw [textOf_respaced] at hrest ⊢
    have htext : textOf (stmtsPlaced (stmt :: stmts)) = textOf stmt.1.comments ++
        (stmt.1.gap ++ (stmt.2.chunk.text ++ textOf (stmtsPlaced stmts))) := by
      rw [stmtsPlaced, List.flatMap_cons, textOf_append, Lead.textOf_placed, Lead.text]
      simp only [List.append_assoc]
      rfl
    rw [htext, List.flatMap_cons, List.map_cons, List.sum_cons]
    simp only [List.countP_append, hold, hnew, hrest]
    omega

end Moved

/-- No comment stands in front of a statement that is moved. -/
def Arm.Safe (layout : SwitchLayout) (arm : Arm) : Prop :=
  armMoves layout arm = true → ∀ stmt ∈ arm.stmts, stmt.1.comments = []

lemma labels_ne_nil_of_moves {layout : SwitchLayout} {arm : Arm}
    (h : armMoves layout arm = true) : arm.labels ≠ [] := by
  intro hnil
  rw [armMoves, hnil] at h
  cases h

lemma getLast?_append_labelsPlaced (front : List (Placed Char)) {labels : List LabelNode}
    (h : labels ≠ []) :
    (front ++ labelsPlaced labels).getLast?.map Placed.lexeme = some [':'] := by
  obtain ⟨init, label, rfl⟩ := List.eq_nil_or_concat labels |>.resolve_left h
  have hplaced : front ++ labelsPlaced (init ++ [label]) =
      (front ++ labelsPlaced init) ++ label.1.placed label.2.chunk := by
    simp [labelsPlaced]
  rw [List.concat_eq_append, hplaced,
    List.getLast?_append_of_ne_nil _ (Lead.placed_ne_nil _ _), Lead.getLast?_placed, label.2.colon]

section Arms

variable {layout : SwitchLayout} {base unit : List Char}

lemma isWhitespace_of_mem_stmtGap (hbase : ∀ c ∈ base, isWhitespace c = true)
    (hunit : ∀ c ∈ unit, isWhitespace c = true) :
    ∀ c ∈ stmtGap base unit layout, isWhitespace c = true := by
  cases layout with
  | collapse => exact List.forall_mem_cons.mpr ⟨rfl, fun c hc => absurd hc List.not_mem_nil⟩
  | expand =>
    exact List.forall_mem_cons.mpr ⟨rfl, List.forall_mem_append.mpr
      ⟨List.forall_mem_append.mpr ⟨hbase, hunit⟩, hunit⟩⟩

lemma Arm.lexemesOf_relaid {arm : Arm} (h : arm.Safe layout) :
    lexemesOf (arm.relaid layout base unit).placed = lexemesOf arm.placed := by
  rw [relaid]
  cases hmoves : armMoves layout arm with
  | false => rfl
  | true =>
    rw [if_pos rfl, placed, placed, lexemesOf_append, lexemesOf_append,
      lexemesOf_respaced (h hmoves)]

lemma Arm.spells_relaid {arm : Arm} (hgap : ∀ c ∈ stmtGap base unit layout, isWhitespace c = true)
    (hsafe : arm.Safe layout)
    (hapart : armMoves layout arm = true → ∀ stmt ∈ arm.stmts, ∀ next,
      KeepsApart stmt.2.chunk.last (stmtGap base unit layout) next)
    (front back : List (Placed Char)) (h : scriptLexis.Spells (front ++ (arm.placed ++ back))) :
    scriptLexis.Spells (front ++ ((arm.relaid layout base unit).placed ++ back)) := by
  rw [relaid]
  cases hmoves : armMoves layout arm with
  | false => exact h
  | true =>
    rw [if_pos rfl, placed, List.append_assoc, ← List.append_assoc]
    rw [placed, List.append_assoc, ← List.append_assoc] at h
    refine spells_respaced hgap (hsafe hmoves) (hapart hmoves) _ _ (fun p hp next => ?_) h
    have hlast := getLast?_append_labelsPlaced front (labels_ne_nil_of_moves hmoves)
    rw [hp] at hlast
    exact keepsApart_of_punctuation (by rw [show p.lexeme = _ from Option.some.inj hlast]; rfl) _ _

lemma spells_relaidArms (hgap : ∀ c ∈ stmtGap base unit layout, isWhitespace c = true)
    {arms : List Arm} (hsafe : ∀ arm ∈ arms, arm.Safe layout)
    (hapart : ∀ arm ∈ arms, armMoves layout arm = true → ∀ stmt ∈ arm.stmts, ∀ next,
      KeepsApart stmt.2.chunk.last (stmtGap base unit layout) next)
    (front back : List (Placed Char))
    (h : scriptLexis.Spells (front ++ (arms.flatMap Arm.placed ++ back))) :
    scriptLexis.Spells
      (front ++ (arms.flatMap (fun arm => (arm.relaid layout base unit).placed) ++ back)) := by
  induction arms generalizing front with
  | nil => exact h
  | cons arm arms ih =>
    rw [List.flatMap_cons, List.append_assoc] at h ⊢
    have harm := Arm.spells_relaid hgap (hsafe arm List.mem_cons_self)
      (hapart arm List.mem_cons_self) front _ h
    rw [← List.append_assoc] at harm ⊢
    exact ih (fun a ha => hsafe a (List.mem_cons_of_mem arm ha))
      (fun a ha => hapart a (List.mem_cons_of_mem arm ha)) _ harm

lemma Arm.map_childLexemes_relaid (arm : Arm) :
    (arm.relaid layout base unit).children.map childLexemes = arm.children.map childLexemes := by
  rw [relaid]
  cases armMoves layout arm with
  | false => rfl
  | true =>
    rw [if_pos rfl, SwitchArm.children, SwitchArm.children, respaced, List.map_map]
    simp only [List.map_append, List.map_map]
    rfl

lemma SwitchStmt.outline_relaid (sw : SwitchStmt) :
    (sw.mapArms (Arm.relaid layout base unit)).outline = sw.outline := by
  have hchildren : (sw.mapArms (Arm.relaid layout base unit)).children.map childLexemes =
      sw.children.map childLexemes := by
    rw [mapArms, sw.children_eq, List.map_flatMap, List.map_flatMap]
    simp only [Arm.map_childLexemes_relaid]
  rw [outline, hchildren, outline]

lemma SwitchStmt.reads_relaid {sw : SwitchStmt}
    (hgap : ∀ c ∈ stmtGap base unit layout, isWhitespace c = true)
    (hsafe : ∀ arm ∈ sw.arms, arm.Safe layout)
    (hapart : ∀ arm ∈ sw.arms, armMoves layout arm = true → ∀ stmt ∈ arm.stmts, ∀ next,
      KeepsApart stmt.2.chunk.last (stmtGap base unit layout) next)
    (h : scriptLexis.Spells sw.layout) :
    sw.Reads (sw.mapArms (Arm.relaid layout base unit)).text
      (sw.mapArms (Arm.relaid layout base unit)) := by
  refine ⟨rfl, ?_, ?_, sw.outline_relaid, fun k => by rw [sw.outline_relaid]⟩
  · rw [layout_mapArms]
    rw [layout_eq] at h
    exact spells_relaidArms hgap hsafe hapart _ _ h
  · have harms : lexemesOf (sw.arms.flatMap fun arm => (arm.relaid layout base unit).placed) =
        lexemesOf (sw.arms.flatMap Arm.placed) := by
      rw [lexemesOf, lexemesOf, List.map_flatMap, List.map_flatMap]
      exact List.flatMap_congr fun arm harm => Arm.lexemesOf_relaid (hsafe arm harm)
    rw [layout_mapArms, layout_eq, lexemesOf_append, lexemesOf_append, harms, lexemesOf_append,
      lexemesOf_append]

/-- The characters of the comments in front of the statements of an arm that moves. -/
def Arm.lost (layout : SwitchLayout) (arm : Arm) : Nat :=
  if armMoves layout arm then
    (arm.stmts.map fun stmt => (textOf stmt.1.comments).countP scriptLexis.solid).sum
  else 0

lemma Arm.countP_relaid {arm : Arm} (hgap : ∀ c ∈ stmtGap base unit layout, isWhitespace c = true)
    (hok : ∀ p ∈ arm.placed, scriptLexis.Ok p) :
    (textOf arm.placed).countP scriptLexis.solid =
      (textOf (arm.relaid layout base unit).placed).countP scriptLexis.solid + arm.lost layout := by
  rw [relaid, lost]
  cases armMoves layout arm with
  | false => rfl
  | true =>
    have hstmts := countP_solid_respaced hgap fun p hp => hok p (List.mem_append_right _ hp)
    rw [if_pos rfl, if_pos rfl, placed, placed, textOf_append, textOf_append, List.countP_append,
      List.countP_append, hstmts]
    dsimp only
    omega

lemma countP_relaidArms (hgap : ∀ c ∈ stmtGap base unit layout, isWhitespace c = true)
    {arms : List Arm} (hok : ∀ arm ∈ arms, ∀ p ∈ arm.placed, scriptLexis.Ok p) :
    (textOf (arms.flatMap Arm.placed)).countP scriptLexis.solid =
      (textOf (arms.flatMap fun arm => (arm.relaid layout base unit).placed)).countP
        scriptLexis.solid + (arms.map (Arm.lost layout)).sum := by
  induction arms with
  | nil => rfl
  | cons arm arms ih =>
    have harm := Arm.countP_relaid hgap (hok arm List.mem_cons_self)
    have hrest := ih fun a ha => hok a (List.mem_cons_of_mem arm ha)
    rw [List.flatMap_cons, List.flatMap_cons, List.map_cons, List.sum_cons, textOf_append,
      textOf_append, List.countP_append, List.countP_append, harm, hrest]
    omega

lemma Arm.safe_of_lost {arm : Arm} (h : arm.lost layout = 0) : arm.Safe layout := by
  intro hmoves stmt hstmt
  rw [lost, if_pos hmoves] at h
  exact Lead.comments_eq_nil_of_countP
    (List.sum_eq_zero_iff_forall_eq_nat.mp h _ (List.mem_map_of_mem hstmt))

lemma SwitchStmt.safe_of_preserves {sw : SwitchStmt}
    (hgap : ∀ c ∈ stmtGap base unit layout, isWhitespace c = true)
    (h : scriptLexis.Spells sw.layout)
    (hpreserves : sw.Preserves (sw.mapArms (Arm.relaid layout base unit)).text) :
    ∀ arm ∈ sw.arms, arm.Safe layout := by
  obtain ⟨sw', hreads⟩ := hpreserves
  have hunmarked : scriptLexis.unmarked sw'.layout = scriptLexis.unmarked sw.layout := by
    rw [Lexis.unmarked, hreads.lexemes, Lexis.unmarked]
  have hsame : (textOf sw'.layout).countP scriptLexis.solid =
      (textOf sw.layout).countP scriptLexis.solid := by
    rw [Lexis.countP_solid hreads.spells.ok, hunmarked, Lexis.countP_solid h.ok]
  have htext : textOf sw'.layout = textOf (sw.mapArms (Arm.relaid layout base unit)).layout :=
    hreads.text_eq
  have hok : ∀ arm ∈ sw.arms, ∀ p ∈ arm.placed, scriptLexis.Ok p := by
    intro arm harm p hp
    rw [layout_eq] at h
    exact h.ok p (List.mem_append_right _ (List.mem_append_left _
      (List.mem_flatMap.mpr ⟨arm, harm, hp⟩)))
  have hcount := countP_relaidArms hgap hok
  rw [htext, layout_mapArms, layout_eq] at hsame
  simp only [textOf_append, List.countP_append] at hsame
  have hsum : (sw.arms.map (Arm.lost layout)).sum = 0 := by omega
  exact fun arm harm => Arm.safe_of_lost
    (List.sum_eq_zero_iff_forall_eq_nat.mp hsum _ (List.mem_map_of_mem harm))

end Arms

/-! ### When the toggle is right -/

/-- No arm on one row has a comment in front of a statement. -/
def SwitchStmt.ExpandSafe (sw : SwitchStmt) : Prop :=
  ∀ arm ∈ sw.arms, armIsInline arm = true → ∀ stmt ∈ arm.stmts, stmt.1.comments = []

instance (sw : SwitchStmt) : Decidable sw.ExpandSafe :=
  inferInstanceAs (Decidable (∀ arm ∈ sw.arms, armIsInline arm = true →
    ∀ stmt ∈ arm.stmts, stmt.1.comments = []))

lemma Arm.safe_expand_iff {arm : Arm} : arm.Safe .expand ↔
    (armIsInline arm = true → ∀ stmt ∈ arm.stmts, stmt.1.comments = []) := by
  constructor
  · intro hsafe hinline stmt hstmt
    refine hsafe ?_ stmt hstmt
    have hlabels : arm.labels.isEmpty = false := by
      cases hempty : arm.labels with
      | nil =>
        rw [armIsInline, hempty] at hinline
        cases hinline
      | cons label labels => rfl
    have hstmts : arm.stmts.isEmpty = false := by
      rw [List.isEmpty_eq_false_iff]
      exact List.ne_nil_of_mem hstmt
    rw [armMoves, hlabels, hstmts, hinline]
    rfl
  · intro h hmoves
    rw [armMoves, Bool.and_eq_true, beq_iff_eq] at hmoves
    exact h hmoves.2

/-- The statements of an arm without comments in it. -/
lemma bare_of_collapsible {arm : Arm} (h : collapsibleArm arm = true) (hlabels : arm.labels ≠ []) :
    ∀ p ∈ stmtsPlaced arm.stmts, isComment p.lexeme = false := by
  intro p hp
  have hinterior : armHasInteriorComment arm = false := by
    rw [collapsibleArm, Bool.and_eq_true, Bool.not_eq_true'] at h
    exact h.2
  have hspan : p ∈ armSpan arm := by
    rw [armSpan]
    cases hcase : arm.labels with
    | nil => exact absurd hcase hlabels
    | cons label labels => exact List.mem_append_right _ (List.mem_append_right _ hp)
  exact Bool.eq_false_iff.mpr (List.any_eq_false.mp hinterior p hspan)

lemma last_mem_placed (stmt : StmtNode) :
    ∃ p ∈ stmt.1.placed stmt.2.chunk, p.lexeme = stmt.2.chunk.last := by
  obtain ⟨p, hp, hlexeme⟩ := Option.map_eq_some_iff.mp (Lead.getLast?_placed stmt.1 stmt.2.chunk)
  exact ⟨p, List.mem_of_getLast? hp, hlexeme⟩

lemma bare_of_offers_collapse {front : List Char} {options : FormatOptions} {sw : SwitchStmt}
    (h : (switchToggle (layoutCtx front options) sw).offers .collapse = true) {arm : Arm}
    (harm : arm ∈ sw.arms) (hmoves : armMoves .collapse arm = true) :
    ∀ p ∈ stmtsPlaced arm.stmts, isComment p.lexeme = false := by
  simp only [SwitchToggle.offers, switchToggle, Bool.and_eq_true, List.all_eq_true] at h
  refine bare_of_collapsible (h.1.1 arm (List.mem_filter.mpr ⟨harm, ?_⟩))
    (labels_ne_nil_of_moves hmoves)
  rw [armMoves, Bool.and_eq_true, Bool.and_eq_true] at hmoves
  exact hmoves.1.2

lemma SwitchStmt.reads_expand {base unit : List Char} {sw : SwitchStmt}
    (hgap : ∀ c ∈ stmtGap base unit .expand, isWhitespace c = true) (hsafe : sw.ExpandSafe)
    (h : scriptLexis.Spells sw.layout) :
    sw.Reads (sw.mapArms (Arm.relaid .expand base unit)).text
      (sw.mapArms (Arm.relaid .expand base unit)) :=
  reads_relaid hgap (fun arm harm => Arm.safe_expand_iff.mpr (hsafe arm harm))
    (fun _ _ _ _ _ _ => keepsApart_of_newline List.mem_cons_self _ _) h

lemma SwitchStmt.reads_collapse {base unit : List Char} {sw : SwitchStmt}
    (hgap : ∀ c ∈ stmtGap base unit .collapse, isWhitespace c = true)
    (hbare : ∀ arm ∈ sw.arms, armMoves .collapse arm = true →
      ∀ p ∈ stmtsPlaced arm.stmts, isComment p.lexeme = false)
    (h : scriptLexis.Spells sw.layout) :
    sw.Reads (sw.mapArms (Arm.relaid .collapse base unit)).text
      (sw.mapArms (Arm.relaid .collapse base unit)) := by
  refine reads_relaid hgap (fun arm harm hmoves stmt hstmt => ?_)
    (fun arm harm hmoves stmt hstmt next => ⟨fun hnil => ?_, fun hline => ?_⟩) h
  · exact Lead.comments_eq_nil fun p hp => hbare arm harm hmoves p
      (List.mem_flatMap.mpr ⟨stmt, hstmt, List.mem_append_left _ hp⟩)
  · exact absurd hnil (List.cons_ne_nil _ _)
  · obtain ⟨p, hp, hlexeme⟩ := last_mem_placed stmt
    have hnone := hbare arm harm hmoves p (List.mem_flatMap.mpr ⟨stmt, hstmt, hp⟩)
    rw [hlexeme, isComment, hline] at hnone
    cases hnone

/-- Joining the statements of the arms always keeps the switch. Splitting them does unless a comment
stands in front of a statement of an arm on one row. -/
theorem preserves_rewriteSwitchLayout_iff (front back : List Char) (options : FormatOptions)
    (sw : SwitchStmt) (layout : SwitchLayout) (h : scriptLexis.Spells sw.layout)
    (hoffers : (switchToggle (layoutCtx front options) sw).offers layout = true) :
    sw.Preserves (rewriteSwitchLayout front sw back options layout) ↔
      (layout = .expand → sw.ExpandSafe) := by
  have hgap : ∀ c ∈ stmtGap (lineIndent (front ++ (sw.text ++ back)) (utf8Bytes front))
      (indentUnitFor options) layout, isWhitespace c = true :=
    isWhitespace_of_mem_stmtGap (fun _ => isWhitespace_of_mem_lineIndent)
      (fun _ => isWhitespace_of_mem_indentUnitFor)
  rw [rewriteSwitchLayout_eq]
  cases layout with
  | expand =>
    refine ⟨fun hpreserves _ arm harm => ?_, fun hsafe =>
      ⟨_, SwitchStmt.reads_expand hgap (hsafe rfl) h⟩⟩
    exact Arm.safe_expand_iff.mp (SwitchStmt.safe_of_preserves hgap h hpreserves arm harm)
  | collapse =>
    have hbare := fun arm harm => @bare_of_offers_collapse _ _ _ hoffers arm harm
    have hne : SwitchLayout.collapse ≠ .expand := by decide
    exact ⟨fun _ heq => absurd heq hne, fun _ => ⟨_, SwitchStmt.reads_collapse hgap hbare h⟩⟩

/-- `break;` -/
def breakStmt : StmtText where
  kind := .breakStmt
  chunk := ⟨['b', 'r', 'e', 'a', 'k'], [⟨[], [';']⟩]⟩
  endsOpen := false
  simple _ := ⟨rfl, rfl⟩

/-- `case n:` -/
def caseLabel (name : Char) : SwitchLabel where
  chunk := ⟨['c', 'a', 's', 'e'], [⟨[' '], [name]⟩, ⟨[], [':']⟩]⟩
  colon := rfl

/-- ` /* n */ ` -/
def commentLead : Lead where
  comments := [⟨[' '], ['/', '*', ' ', 'n', ' ', '*', '/']⟩]
  gap := [' ']
  areComments := by decide

/-- A switch with `case 1: a(); break;` and `case 2: b(); break;` on rows of their own. -/
def switchOf (lead : Lead) : SwitchStmt where
  head := ⟨['s', 'w', 'i', 't', 'c', 'h'], [⟨[' '], ['(']⟩, ⟨[], ['x']⟩, ⟨[], [')']⟩]⟩
  openLead := .blanks [' ']
  children :=
    [.label (.blanks ['\n'], caseLabel '1'), .stmt (.blanks [' '], callStmt 'a'),
      .stmt (.blanks [' '], breakStmt), .label (.blanks ['\n'], caseLabel '2'),
      .stmt (lead, callStmt 'b'), .stmt (.blanks [' '], breakStmt)]
  closeLead := .blanks ['\n']

lemma spells_switchOf_blank : scriptLexis.Spells (switchOf (.blanks [' '])).layout := by decide

lemma spells_switchOf_comment : scriptLexis.Spells (switchOf commentLead).layout := by decide

/-- Without the comment the switch is split. -/
theorem preserves_switchOf_blank : (switchOf (.blanks [' '])).Preserves
    (rewriteSwitchLayout [] (switchOf (.blanks [' '])) [] tabOptions .expand) :=
  (preserves_rewriteSwitchLayout_iff [] [] tabOptions (switchOf (.blanks [' '])) .expand
    spells_switchOf_blank (by decide)).mpr fun _ => by decide

/-- The first arm lets the switch be split, and the comment in the second is lost. -/
theorem not_preserves_switchOf_comment : ¬ ∀ (front back : List Char) (options : FormatOptions)
    (sw : SwitchStmt) (layout : SwitchLayout), scriptLexis.Spells sw.layout →
    (switchToggle (layoutCtx front options) sw).offers layout = true →
    sw.Preserves (rewriteSwitchLayout front sw back options layout) := by
  intro hall
  have hpreserves := hall [] [] tabOptions (switchOf commentLead) .expand spells_switchOf_comment
    (by decide)
  rw [rewriteSwitchLayout_eq] at hpreserves
  have hgap : ∀ c ∈ stmtGap (lineIndent ([] ++ ((switchOf commentLead).text ++ [])) (utf8Bytes []))
      (indentUnitFor tabOptions) .expand, isWhitespace c = true :=
    isWhitespace_of_mem_stmtGap (fun _ => isWhitespace_of_mem_lineIndent)
      (fun _ => isWhitespace_of_mem_indentUnitFor)
  have hsafe : (switchOf commentLead).ExpandSafe := fun arm harm => Arm.safe_expand_iff.mp
    (SwitchStmt.safe_of_preserves hgap spells_switchOf_comment hpreserves arm harm)
  exact absurd hsafe (by decide)

end WitcherScriptLanguage
