import WitcherScriptLanguage.Resolve.ReachingPaths

/-!
# Soundness of the reaching definitions

On a body whose definitions all sit in leaves that the walk reads correctly, every execution
keeps the invariant that the mask of the point it has reached contains the definition it executed
last. A loop is entered again at the header state, which a second pass leaves unchanged.
-/

namespace WitcherScriptLanguage

open Library

def SwitchFlow.exit (f : SwitchFlow) : Outcome → Option Mask
  | .normal => f.cur
  | .brk => f.breaks
  | .cont => f.continues
  | .ret => f.returns

namespace Analyzer

variable (a : Analyzer)

def leafOk (r : Region) : Bool := a.located r && a.straight r

def condOk (r : Region) : Bool := a.located r && r.quiet

/-- The exit of a do-while holds what a `continue` of its body defined last. -/
def KeepsContinues (body : Stmt) : Prop :=
  ∀ es, Exec (.stmt body) es .cont → ∀ m st, Holds m st →
    Reaches (union ((a.stmtTransfer body).apply m).normal ((a.stmtTransfer body).apply m).breaks)
      (lastDef st es)

/-- The sections of a switch suit the walk; `entered` says whether the first of them runs. -/
def SectionsFit (entered : Prop) (s : Sections) : Prop :=
  s.Check a.leafOk a.condOk a.KeepsContinues entered

/-- A task whose leaves, conditions and do-while bodies suit the walk. -/
def Fits : Task → Prop
  | .stmt s => s.Check a.leafOk a.condOk a.KeepsContinues
  | .block b => b.Check a.leafOk a.condOk a.KeepsContinues
  | .sections s => a.SectionsFit True s

/-- The walk from a state that holds the last definition ends at the exit of the execution with
a state that does, and every read on the way is covered. -/
def Sound : Task → List Event → Outcome → Prop
  | .stmt s, es, o => ∀ m st out, Holds m st → out.length = a.reads.length →
    Reaches ((a.evalStmt s m .record out).1.exit o) (lastDef st es) ∧
      Covers (a.evalStmt s m .record out).2 st es
  | .block b, es, o => ∀ flow m st out, flow.normal = some m → Holds m st →
    out.length = a.reads.length →
    Reaches ((a.evalBlock b flow .record out).1.exit o) (lastDef st es) ∧
      Covers (a.evalBlock b flow .record out).2 st es
  | .sections s, es, o => ∀ entry acc m st out, acc.cur = some m → Holds m st →
    out.length = a.reads.length →
    Reaches ((a.evalSections s entry acc .record out).1.exit o) (lastDef st es) ∧
      Covers (a.evalSections s entry acc .record out).2 st es

end Analyzer

namespace Analyzer

variable {a : Analyzer} {body : Stmt} {cond iter : Option Region} {m : Mask} {st : Option Nat}
  {out : List Mask}

lemma condOk_lastDef {region : Option Region} (h : optAll a.condOk region) {p : List Event}
    (hp : p ∈ optPaths region) (st : Option Nat) : lastDef st p = st := by
  cases region with
  | none => rw [List.mem_singleton.mp hp, lastDef_nil]
  | some r => exact quiet_lastDef ((Bool.and_eq_true _ _).mp h).2 hp st

lemma condOk_sound {region : Option Region} (h : optAll a.condOk region) {p : List Event}
    (hp : p ∈ optPaths region) (hm : Holds m st) (hout : out.length = a.reads.length) :
    lastDef st p = st ∧ Covers (a.recordOpt region m .record out) st p := by
  apply quiet_sound _ _ hp hm hout
  · cases region with
    | none => rfl
    | some r => exact ((Bool.and_eq_true _ _).mp h).1
  · cases region with
    | none => rfl
    | some r => exact ((Bool.and_eq_true _ _).mp h).2

lemma leafOk_sound (hfew : a.defs.length ≤ maxDefs) {r : Region} (h : a.leafOk r)
    {p : List Event} (hp : p ∈ r.evaluation.paths) (hm : Holds m st)
    (hout : out.length = a.reads.length) :
    Holds (a.genIn r.span m) (lastDef st p) ∧ Covers (a.record r.span m .record out) st p :=
  leaf_sound hfew ((Bool.and_eq_true _ _).mp h).1 ((Bool.and_eq_true _ _).mp h).2 hp hm hout

/-- What a completed iteration carries back holds its last definition. -/
lemma carried_holds {pass : Pass} {o : Outcome} (hrepeats : Repeats o)
    (h : Reaches ((a.evalStmt body m pass out).1.exit o) st) :
    Holds ((a.stmtTransfer body).carried.apply m) st := by
  rw [evalStmt_flow] at h
  have hunion : Reaches (union ((a.stmtTransfer body).apply m).normal
      ((a.stmtTransfer body).apply m).continues) st := by
    cases hrepeats with
    | normal => exact reaches_union (.inl h)
    | cont => exact reaches_union (.inr h)
  obtain ⟨x, hx, hholds⟩ := hunion
  rw [← FlowTransfer.carried_eq, hx]
  exact hholds

variable (a) in
/-- One iteration of a loop body with its iteration clause. -/
def iteration (iter : Option Region) (body : Stmt) : Transfer 128 :=
  (a.stmtTransfer body).carried.andThen (a.genTransferOpt iter)

lemma holds_header {t : Transfer 128} (h : Holds m st) : Holds (t.header.apply m) st := by
  rw [Transfer.apply_header]
  exact holds_union (.inl h)

/-- An iteration that starts at the header state ends within it. -/
lemma holds_header_of_apply {t : Transfer 128} (h : Holds (t.apply (t.header.apply m)) st) :
    Holds (t.header.apply m) st := by
  rw [← Transfer.header_idempotent, Transfer.apply_header]
  exact holds_union (.inr h)

lemma evalStmt_forStmt (cond iter : Option Region) (body : Stmt) (m : Mask) (out : List Mask) :
    a.evalStmt (.forStmt none cond iter body) m .record out =
      let header := (a.iteration iter body).header.apply m
      let (flow, out) := a.evalStmt body header .record (a.recordOpt cond header .record out)
      ({ normal := union (some header) flow.breaks, returns := flow.returns },
        a.recordOpt iter ((a.stmtTransfer body).carried.apply header) .record out) := by
  have hheader : (a.iteration iter body).header.apply m =
      m ||| a.genInOpt iter ((a.stmtTransfer body).carried.apply m) := by
    rw [Transfer.apply_header, iteration, Transfer.apply_andThen, apply_genTransferOpt]
  have hjoin : ∀ x : Mask, (union (some m) (some x)).getD m = m ||| x := fun _ => rfl
  simp only [evalStmt, evalLeafOpt, evalStmt_learn, evalStmt_flow a body m .learn out,
    FlowTransfer.carried_eq, hheader, hjoin]
  generalize m ||| a.genInOpt iter ((a.stmtTransfer body).carried.apply m) = header
  rw [← FlowTransfer.carried_eq, ← evalStmt_flow a body header .record]

/-- The walk treats a `while` as a `for` without clauses. -/
lemma evalStmt_whileStmt (cond : Option Region) (body : Stmt) (m : Mask) (out : List Mask) :
    a.evalStmt (.whileStmt cond body) m .record out =
      a.evalStmt (.forStmt none cond none body) m .record out := by
  rw [evalStmt_forStmt]
  have hheader : (a.iteration none body).header.apply m =
      (a.stmtTransfer body).carried.header.apply m := by
    rw [Transfer.apply_header, Transfer.apply_header, iteration, Transfer.apply_andThen,
      genTransferOpt, Transfer.apply_identity]
  simp only [evalStmt, evalStmt_learn, evalStmt_flow a body m .learn out, FlowTransfer.header_eq,
    hheader]
  rfl

lemma evalStmt_forStmt_header :
    a.evalStmt (.forStmt none cond iter body) ((a.iteration iter body).header.apply m) .record
      out = a.evalStmt (.forStmt none cond iter body) m .record out := by
  rw [evalStmt_forStmt, evalStmt_forStmt, Transfer.header_idempotent]

lemma Fits.forStmt {init : Option Region} (h : a.Fits (.stmt (.forStmt init cond iter body))) :
    optAll a.leafOk init ∧ optAll a.condOk cond ∧ (body.Iterates → optAll a.leafOk iter) ∧
      a.Fits (.stmt body) := h

lemma for_exit (hfits : a.Fits (.stmt (.forStmt none cond iter body))) {p : List Event}
    (hp : p ∈ optPaths cond) : a.Sound (.stmt (.forStmt none cond iter body)) p .normal := by
  intro m st out hm hout
  obtain ⟨-, hcond, -, -⟩ := Fits.forStmt hfits
  obtain ⟨hlast, hcovers⟩ := condOk_sound hcond hp
    (holds_header (t := a.iteration iter body) hm) hout
  rw [evalStmt_forStmt]
  constructor
  · rw [hlast]
    exact reaches_union (.inl (reaches_some (holds_header hm)))
  · exact hcovers.grows ((evalStmt_grows body _ _).trans (recordOpt_grows iter _ _ _))

lemma for_leave (hfits : a.Fits (.stmt (.forStmt none cond iter body))) {p es : List Event}
    {o o' : Outcome} (hp : p ∈ optPaths cond) (hbody : a.Sound (.stmt body) es o)
    (hleaves : LeavesLoop o o') :
    a.Sound (.stmt (.forStmt none cond iter body)) (p ++ es) o' := by
  intro m st out hm hout
  obtain ⟨-, hcond, -, -⟩ := Fits.forStmt hfits
  have hheader : Holds ((a.iteration iter body).header.apply m) st := holds_header hm
  obtain ⟨hlast, hcovers⟩ := condOk_sound hcond hp hheader hout
  obtain ⟨hreach, hcovers'⟩ := hbody _ st _ hheader ((recordOpt_grows cond _ _ out).length.trans hout)
  rw [evalStmt_forStmt, lastDef_append, hlast]
  constructor
  · cases hleaves with
    | brk => exact reaches_union (.inr hreach)
    | ret => exact hreach
  · refine Covers.append (hcovers.grows ?_) ?_
    · exact (evalStmt_grows body _ _).trans (recordOpt_grows iter _ _ _)
    · rw [hlast]
      exact hcovers'.grows (recordOpt_grows iter _ _ _)

/-- The iteration clause runs on what the body carried back. -/
lemma iter_sound (hfew : a.defs.length ≤ maxDefs) (hiter : optAll a.leafOk iter)
    {q : List Event} (hq : q ∈ optPaths iter) (hm : Holds m st)
    (hout : out.length = a.reads.length) :
    Holds ((a.genTransferOpt iter).apply m) (lastDef st q) ∧
      Covers (a.recordOpt iter m .record out) st q := by
  rw [apply_genTransferOpt]
  cases iter with
  | none =>
    rw [List.mem_singleton.mp hq]
    exact ⟨hm, covers_nil _ _⟩
  | some r => exact leafOk_sound hfew hiter hq hm hout

lemma for_next (hfew : a.defs.length ≤ maxDefs)
    (hfits : a.Fits (.stmt (.forStmt none cond iter body))) {p es q es' : List Event}
    {o o' : Outcome} (hp : p ∈ optPaths cond) (hexec : Exec (.stmt body) es o)
    (hbody : a.Sound (.stmt body) es o) (hrepeats : Repeats o) (hq : q ∈ optPaths iter)
    (hloop : a.Sound (.stmt (.forStmt none cond iter body)) es' o') :
    a.Sound (.stmt (.forStmt none cond iter body)) (p ++ es ++ q ++ es') o' := by
  intro m st out hm hout
  obtain ⟨-, hcond, hiter, -⟩ := Fits.forStmt hfits
  have hheader : Holds ((a.iteration iter body).header.apply m) st := holds_header hm
  obtain ⟨hlast, hcovers⟩ := condOk_sound hcond hp hheader hout
  have hout' : (a.recordOpt cond _ .record out).length = a.reads.length :=
    (recordOpt_grows cond ((a.iteration iter body).header.apply m) .record out).length.trans hout
  obtain ⟨hreach, hcovers'⟩ := hbody _ st _ hheader hout'
  have hcarried := carried_holds hrepeats hreach
  obtain ⟨hiterated, hcovers''⟩ := iter_sound hfew (hiter ⟨es, o, hexec, hrepeats⟩) hq hcarried
    ((evalStmt_grows (a := a) body ((a.iteration iter body).header.apply m) _).length.trans hout')
  have hnext : Holds ((a.iteration iter body).apply ((a.iteration iter body).header.apply m))
      (lastDef (lastDef st es) q) := by
    rw [iteration, Transfer.apply_andThen]
    exact hiterated
  -- The next iteration starts within the header state, on which the walk repeats itself.
  have hrest := hloop _ _ out (holds_header_of_apply hnext) hout
  rw [evalStmt_forStmt_header] at hrest
  simp only [lastDef_append, hlast]
  refine ⟨hrest.1, Covers.append (Covers.append (Covers.append ?_ ?_) ?_) ?_⟩
  · rw [evalStmt_forStmt]
    exact hcovers.grows ((evalStmt_grows body _ _).trans (recordOpt_grows iter _ _ _))
  · rw [evalStmt_forStmt, hlast]
    exact hcovers'.grows (recordOpt_grows iter _ _ _)
  · rw [evalStmt_forStmt, lastDef_append, hlast]
    exact hcovers''
  · simp only [lastDef_append, hlast]
    exact hrest.2

lemma Fits.whileStmt (h : a.Fits (.stmt (.whileStmt cond body))) :
    a.Fits (.stmt (.forStmt none cond none body)) :=
  ⟨rfl, h.1, fun _ => rfl, h.2⟩

lemma sound_whileStmt {es : List Event} {o : Outcome}
    (h : a.Sound (.stmt (.forStmt none cond none body)) es o) :
    a.Sound (.stmt (.whileStmt cond body)) es o := by
  intro m st out hm hout
  rw [evalStmt_whileStmt]
  exact h m st out hm hout

lemma while_next (hfew : a.defs.length ≤ maxDefs) (hfits : a.Fits (.stmt (.whileStmt cond body)))
    {p es es' : List Event} {o o' : Outcome} (hp : p ∈ optPaths cond)
    (hexec : Exec (.stmt body) es o) (hbody : a.Sound (.stmt body) es o) (hrepeats : Repeats o)
    (hloop : a.Sound (.stmt (.whileStmt cond body)) es' o') :
    a.Sound (.stmt (.whileStmt cond body)) (p ++ es ++ es') o' := by
  have hfor : a.Sound (.stmt (.forStmt none cond none body)) es' o' := by
    intro m st out hm hout
    rw [← evalStmt_whileStmt]
    exact hloop m st out hm hout
  have hnext :=
    for_next hfew hfits.whileStmt hp hexec hbody hrepeats (List.mem_singleton.mpr rfl) hfor
  rw [List.append_nil] at hnext
  exact sound_whileStmt hnext

lemma evalStmt_doWhile (cond : Option Region) (body : Stmt) (m : Mask) (out : List Mask) :
    a.evalStmt (.doWhile cond body) m .record out =
      let entry := (a.stmtTransfer body).carried.header.apply m
      let (flow, out) := a.evalStmt body entry .record out
      ({ normal := union flow.normal flow.breaks, returns := flow.returns },
        a.recordOpt cond ((a.stmtTransfer body).carried.apply entry) .record out) := by
  simp only [evalStmt, evalStmt_learn, evalStmt_flow a body m .learn out, FlowTransfer.header_eq]
  generalize (a.stmtTransfer body).carried.header.apply m = entry
  rw [← FlowTransfer.carried_eq, ← evalStmt_flow a body entry .record out]

lemma evalStmt_doWhile_header :
    a.evalStmt (.doWhile cond body) ((a.stmtTransfer body).carried.header.apply m) .record out =
      a.evalStmt (.doWhile cond body) m .record out := by
  rw [evalStmt_doWhile, evalStmt_doWhile, Transfer.header_idempotent]

lemma Fits.doWhile (h : a.Fits (.stmt (.doWhile cond body))) :
    (body.Iterates → optAll a.condOk cond) ∧ a.KeepsContinues body ∧ a.Fits (.stmt body) := h

lemma do_leave {es : List Event} {o o' : Outcome} (hbody : a.Sound (.stmt body) es o)
    (hleaves : LeavesLoop o o') : a.Sound (.stmt (.doWhile cond body)) es o' := by
  intro m st out hm hout
  obtain ⟨hreach, hcovers⟩ := hbody _ st out (holds_header hm) hout
  rw [evalStmt_doWhile]
  refine ⟨?_, hcovers.grows (recordOpt_grows cond _ _ _)⟩
  cases hleaves with
  | brk => exact reaches_union (.inr hreach)
  | ret => exact hreach

/-- The condition runs on what the body carried back. -/
lemma do_cond (hcond : optAll a.condOk cond) {es p : List Event} {o : Outcome}
    (hbody : a.Sound (.stmt body) es o) (hrepeats : Repeats o) (hp : p ∈ optPaths cond)
    (hm : Holds m st) (hout : out.length = a.reads.length) :
    Holds ((a.stmtTransfer body).carried.apply ((a.stmtTransfer body).carried.header.apply m))
        (lastDef st (es ++ p)) ∧
      Covers (a.evalStmt (.doWhile cond body) m .record out).2 st (es ++ p) := by
  have hheader : Holds ((a.stmtTransfer body).carried.header.apply m) st := holds_header hm
  obtain ⟨hreach, hcovers⟩ := hbody _ st out hheader hout
  have hcarried := carried_holds hrepeats hreach
  have hout' : (a.evalStmt body _ .record out).2.length = a.reads.length :=
    (evalStmt_grows body ((a.stmtTransfer body).carried.header.apply m) out).length.trans hout
  obtain ⟨hlast, hcovers'⟩ := condOk_sound hcond hp hcarried hout'
  rw [lastDef_append, hlast, evalStmt_doWhile]
  exact ⟨hcarried, (hcovers.grows (recordOpt_grows cond _ _ _)).append hcovers'⟩

lemma do_exit (hfits : a.Fits (.stmt (.doWhile cond body))) {es p : List Event} {o : Outcome}
    (hexec : Exec (.stmt body) es o) (hbody : a.Sound (.stmt body) es o) (hrepeats : Repeats o)
    (hp : p ∈ optPaths cond) : a.Sound (.stmt (.doWhile cond body)) (es ++ p) .normal := by
  intro m st out hm hout
  obtain ⟨hcond, hcontinue, -⟩ := Fits.doWhile hfits
  have hcond : optAll a.condOk cond := hcond ⟨es, o, hexec, hrepeats⟩
  have hcovers := (do_cond hcond hbody hrepeats hp hm hout).2
  refine ⟨?_, hcovers⟩
  have hheader : Holds ((a.stmtTransfer body).carried.header.apply m) st := holds_header hm
  obtain ⟨hreach, -⟩ := hbody _ st out hheader hout
  rw [evalStmt_doWhile, lastDef_append, condOk_lastDef hcond hp]
  cases hrepeats with
  | normal => exact reaches_union (.inl hreach)
  | cont =>
    have hkept := hcontinue es hexec _ st hheader
    rw [← evalStmt_flow a body _ .record out] at hkept
    exact hkept

lemma do_next (hfits : a.Fits (.stmt (.doWhile cond body))) {es p es' : List Event}
    {o o' : Outcome} (hexec : Exec (.stmt body) es o) (hbody : a.Sound (.stmt body) es o)
    (hrepeats : Repeats o) (hp : p ∈ optPaths cond)
    (hloop : a.Sound (.stmt (.doWhile cond body)) es' o') :
    a.Sound (.stmt (.doWhile cond body)) (es ++ p ++ es') o' := by
  intro m st out hm hout
  have hcond : optAll a.condOk cond := hfits.doWhile.1 ⟨es, o, hexec, hrepeats⟩
  obtain ⟨hnext, hcovers⟩ := do_cond hcond hbody hrepeats hp hm hout
  have hrest := hloop _ _ out (holds_header_of_apply hnext) hout
  rw [evalStmt_doWhile_header] at hrest
  rw [lastDef_append]
  exact ⟨hrest.1, hcovers.append hrest.2⟩

lemma for_init (hfew : a.defs.length ≤ maxDefs) {node : Region}
    (hfits : a.Fits (.stmt (.forStmt (some node) cond iter body))) {p es : List Event}
    {o : Outcome} (hp : p ∈ node.evaluation.paths)
    (hloop : a.Fits (.stmt (.forStmt none cond iter body)) →
      a.Sound (.stmt (.forStmt none cond iter body)) es o) :
    a.Sound (.stmt (.forStmt (some node) cond iter body)) (p ++ es) o := by
  intro m st out hm hout
  obtain ⟨hinit, hcond, hiter, hbody⟩ := Fits.forStmt hfits
  have hfits' : a.Fits (.stmt (.forStmt none cond iter body)) := ⟨rfl, hcond, hiter, hbody⟩
  obtain ⟨hholds, hcovers⟩ := leafOk_sound hfew hinit hp hm hout
  have hout' := (record_grows (a := a) node.span m .record out).length.trans hout
  have hrest := hloop hfits' _ _ _ hholds hout'
  have heval : a.evalStmt (.forStmt (some node) cond iter body) m .record out =
      a.evalStmt (.forStmt none cond iter body) (a.genIn node.span m) .record
        (a.record node.span m .record out) := by
    simp only [evalStmt, evalLeafOpt, evalLeaf]
  rw [heval, lastDef_append]
  exact ⟨hrest.1, (hcovers.grows (evalStmt_grows _ _ _)).append hrest.2⟩

lemma Fits.ifStmt {orElse : Stmt} (h : a.Fits (.stmt (.ifStmt cond body orElse))) :
    optAll a.condOk cond ∧ a.Fits (.stmt body) ∧ a.Fits (.stmt orElse) := h

lemma if_then {orElse : Stmt} (hfits : a.Fits (.stmt (.ifStmt cond body orElse)))
    {p es : List Event} {o : Outcome} (hp : p ∈ optPaths cond)
    (hbody : a.Sound (.stmt body) es o) :
    a.Sound (.stmt (.ifStmt cond body orElse)) (p ++ es) o := by
  intro m st out hm hout
  obtain ⟨hlast, hcovers⟩ := condOk_sound hfits.ifStmt.1 hp hm hout
  have hout' := (recordOpt_grows (a := a) cond m .record out).length.trans hout
  obtain ⟨hreach, hcovers'⟩ := hbody m st _ hm hout'
  rw [lastDef_append, hlast]
  constructor
  · cases o <;> exact reaches_union (.inl hreach)
  · refine Covers.append (hcovers.grows ?_) ?_
    · exact (evalStmt_grows body _ _).trans (evalStmt_grows orElse _ _)
    · rw [hlast]
      exact hcovers'.grows (evalStmt_grows orElse _ _)

lemma if_else {orElse : Stmt} (hfits : a.Fits (.stmt (.ifStmt cond body orElse)))
    {p es : List Event} {o : Outcome} (hp : p ∈ optPaths cond)
    (helse : a.Sound (.stmt orElse) es o) :
    a.Sound (.stmt (.ifStmt cond body orElse)) (p ++ es) o := by
  intro m st out hm hout
  obtain ⟨hlast, hcovers⟩ := condOk_sound hfits.ifStmt.1 hp hm hout
  have hout' := (recordOpt_grows (a := a) cond m .record out).length.trans hout
  have hout'' := (evalStmt_grows (a := a) body m _).length.trans hout'
  obtain ⟨hreach, hcovers'⟩ := helse m st _ hm hout''
  rw [lastDef_append, hlast]
  constructor
  · cases o <;> exact reaches_union (.inr hreach)
  · refine Covers.append (hcovers.grows ?_) ?_
    · exact (evalStmt_grows body _ _).trans (evalStmt_grows orElse _ _)
    · rw [hlast]
      exact hcovers'

lemma holds_allOnes (hm : Holds m st) : Holds (BitVec.allOnes 128) st := by
  intro d hd
  rw [BitVec.getLsbD_allOnes, decide_eq_true_iff]
  exact BitVec.lt_of_getLsbD (hm d hd)

lemma other_sound {node : Region} (hfits : a.Fits (.stmt (.other node))) {p : List Event}
    (hp : p ∈ node.evaluation.paths) : a.Sound (.stmt (.other node)) p .normal := by
  intro m st out hm hout
  have hcond : optAll a.condOk (some node) := hfits
  obtain ⟨hlast, hcovers⟩ := condOk_sound hcond hp (holds_allOnes hm) hout
  rw [hlast]
  exact ⟨reaches_some hm, hcovers⟩

/-- The flow in front of the next statement of a block. -/
def followedBy (flow next : Flow) : Flow where
  normal := next.normal
  breaks := union flow.breaks next.breaks
  continues := union flow.continues next.continues
  returns := union flow.returns next.returns

lemma evalBlock_cons {s : Stmt} {rest : Block} {flow : Flow} (h : flow.normal = some m) :
    a.evalBlock (.cons s rest) flow .record out =
      a.evalBlock rest (followedBy flow (a.evalStmt s m .record out).1) .record
        (a.evalStmt s m .record out).2 := by
  rw [evalBlock, h]
  rfl

/-- The accumulator in front of the next part of a switch. -/
def switchFollowedBy (acc : SwitchFlow) (next : Flow) : SwitchFlow :=
  { acc with
    breaks := union acc.breaks next.breaks
    continues := union acc.continues next.continues
    returns := union acc.returns next.returns
    cur := next.normal }

lemma evalSections_stmt {s : Stmt} {rest : Sections} {entry : Mask} {acc : SwitchFlow}
    (h : acc.cur = some m) :
    a.evalSections (.stmt s rest) entry acc .record out =
      a.evalSections rest entry (switchFollowedBy acc (a.evalStmt s m .record out).1) .record
        (a.evalStmt s m .record out).2 := by
  rw [evalSections, h]
  rfl

lemma evalBlock_keeps (b : Block) {flow : Flow} {o : Outcome} (ho : o ≠ .normal)
    (h : Reaches (flow.exit o) st) (out : List Mask) :
    Reaches ((a.evalBlock b flow .record out).1.exit o) st := by
  cases b with
  | nil => exact h
  | cons stmt rest =>
    rw [evalBlock]
    cases flow.normal with
    | none => exact h
    | some cur =>
      apply evalBlock_keeps rest ho
      cases o with
      | normal => exact absurd rfl ho
      | brk | cont | ret => exact reaches_union (.inl h)

lemma evalSections_keeps (s : Sections) (entry : Mask) {acc : SwitchFlow} {o : Outcome}
    (ho : o ≠ .normal) (h : Reaches (acc.exit o) st) (out : List Mask) :
    Reaches ((a.evalSections s entry acc .record out).1.exit o) st := by
  have hcur : ∀ cur d, Reaches (({ acc with cur := cur, hasDefault := d } : SwitchFlow).exit o) st
      := by
    intro cur d
    cases o with
    | normal => exact absurd rfl ho
    | brk | cont | ret => exact h
  cases s with
  | nil => exact h
  | caseLabel value rest => exact evalSections_keeps rest entry ho (hcur _ _) _
  | defaultLabel rest => exact evalSections_keeps rest entry ho (hcur _ _) _
  | stmt stmt rest =>
    apply evalSections_keeps rest entry ho
    cases o with
    | normal => exact absurd rfl ho
    | brk | cont | ret => exact reaches_union (.inl h)

lemma block_cons {s : Stmt} {rest : Block} {es es' : List Event} {o : Outcome}
    (hstmt : a.Sound (.stmt s) es .normal) (hrest : a.Sound (.block rest) es' o) :
    a.Sound (.block (.cons s rest)) (es ++ es') o := by
  intro flow m st out hflow hm hout
  obtain ⟨⟨x, hx, hholds⟩, hcovers⟩ := hstmt m st out hm hout
  have hout' := (evalStmt_grows (a := a) s m out).length.trans hout
  rw [evalBlock_cons hflow, lastDef_append]
  obtain ⟨hreach, hcovers'⟩ := hrest (followedBy flow _) x _ _ hx hholds hout'
  exact ⟨hreach, (hcovers.grows (evalBlock_grows rest _ _)).append hcovers'⟩

lemma block_leave {s : Stmt} {rest : Block} {es : List Event} {o : Outcome}
    (hstmt : a.Sound (.stmt s) es o) (ho : o ≠ .normal) :
    a.Sound (.block (.cons s rest)) es o := by
  intro flow m st out hflow hm hout
  obtain ⟨hreach, hcovers⟩ := hstmt m st out hm hout
  rw [evalBlock_cons hflow]
  refine ⟨evalBlock_keeps rest ho ?_ _, hcovers.grows (evalBlock_grows rest _ _)⟩
  cases o with
  | normal => exact absurd rfl ho
  | brk | cont | ret => exact reaches_union (.inr hreach)

lemma sections_stmt {s : Stmt} {rest : Sections} {es es' : List Event} {o : Outcome}
    (hstmt : a.Sound (.stmt s) es .normal) (hrest : a.Sound (.sections rest) es' o) :
    a.Sound (.sections (.stmt s rest)) (es ++ es') o := by
  intro entry acc m st out hacc hm hout
  obtain ⟨⟨x, hx, hholds⟩, hcovers⟩ := hstmt m st out hm hout
  have hout' := (evalStmt_grows (a := a) s m out).length.trans hout
  rw [evalSections_stmt hacc, lastDef_append]
  obtain ⟨hreach, hcovers'⟩ := hrest entry (switchFollowedBy acc _) x _ _ hx hholds hout'
  exact ⟨hreach, (hcovers.grows (evalSections_grows rest entry _ _)).append hcovers'⟩

lemma sections_leave {s : Stmt} {rest : Sections} {es : List Event} {o : Outcome}
    (hstmt : a.Sound (.stmt s) es o) (ho : o ≠ .normal) :
    a.Sound (.sections (.stmt s rest)) es o := by
  intro entry acc m st out hacc hm hout
  obtain ⟨hreach, hcovers⟩ := hstmt m st out hm hout
  rw [evalSections_stmt hacc]
  refine ⟨evalSections_keeps rest entry ho ?_ _, hcovers.grows (evalSections_grows rest entry _ _)⟩
  cases o with
  | normal => exact absurd rfl ho
  | brk | cont | ret => exact reaches_union (.inr hreach)

/-- Falling through a label joins the entry state. -/
lemma sections_label {value : Option Region} {rest : Sections} {es : List Event} {o : Outcome}
    (hrest : a.Sound (.sections rest) es o) : a.Sound (.sections (.caseLabel value rest)) es o := by
  intro entry acc m st out hacc hm hout
  rw [evalSections, hacc]
  exact hrest entry _ (m ||| entry) st _ rfl (holds_union (.inl hm))
    ((recordOpt_grows value entry _ out).length.trans hout)

lemma sections_default {rest : Sections} {es : List Event} {o : Outcome}
    (hrest : a.Sound (.sections rest) es o) : a.Sound (.sections (.defaultLabel rest)) es o := by
  intro entry acc m st out hacc hm hout
  rw [evalSections, hacc]
  exact hrest entry _ (m ||| entry) st _ rfl (holds_union (.inl hm)) hout

variable {s target : Sections} {entry : Mask} {acc : SwitchFlow} {q : List Event}

/-- The walk over `s` comes to `target` with a state that holds `st`. -/
def Arrives (a : Analyzer) (s : Sections) (entry : Mask) (acc : SwitchFlow) (out : List Mask)
    (target : Sections) (st : Option Nat) : Prop :=
  ∃ acc' out', a.evalSections s entry acc .record out =
    a.evalSections target entry acc' .record out' ∧ Reaches acc'.cur st ∧ Grows out out'

lemma Arrives.of_rest {s' : Sections} {acc' : SwitchFlow} {out' : List Mask}
    (h : a.Arrives s' entry acc' out' target st) (hgrows : Grows out out')
    (heval : a.evalSections s entry acc .record out =
      a.evalSections s' entry acc' .record out') : a.Arrives s entry acc out target st := by
  obtain ⟨acc'', out'', heval', hreach, hgrows'⟩ := h
  exact ⟨acc'', out'', heval.trans heval', hreach, hgrows.trans hgrows'⟩

lemma reaches_label (hm : Holds entry st) (cur : Option Mask) :
    Reaches (union cur (some entry)) st :=
  reaches_union (.inr (reaches_some hm))

lemma caseEntry_fits {entered : Prop} (h : CaseEntry s q target) (hfits : a.SectionsFit entered s) :
    a.Fits (.sections target) := by
  induction h generalizing entered with
  | hit => exact hfits.2
  | miss _ _ ih => exact ih hfits.2
  | default _ ih => exact ih (show a.SectionsFit True _ from hfits)
  | stmt _ ih => exact ih hfits.2

lemma defaultAt_fits {entered : Prop} (h : DefaultAt s target) (hfits : a.SectionsFit entered s) :
    a.Fits (.sections target) := by
  induction h generalizing entered with
  | here => exact hfits
  | label _ ih => exact ih hfits.2
  | default _ ih => exact ih (show a.SectionsFit True _ from hfits)
  | stmt _ ih => exact ih hfits.2

lemma caseEntry_arrives (h : CaseEntry s q target) (hm : Holds entry st) (acc : SwitchFlow)
    (out : List Mask) : a.Arrives s entry acc out target st := by
  induction h generalizing acc out with
  | hit => exact ⟨_, _, rfl, reaches_label hm _, recordOpt_grows _ _ _ _⟩
  | miss _ _ ih => exact (ih _ _).of_rest (recordOpt_grows _ _ _ _) rfl
  | default _ ih => exact ih _ _
  | stmt _ ih => exact (ih _ _).of_rest (evalStmt_grows _ _ _) rfl

lemma defaultAt_arrives (h : DefaultAt s target) (hm : Holds entry st) (acc : SwitchFlow)
    (out : List Mask) : a.Arrives s entry acc out target st := by
  induction h generalizing acc out with
  | here => exact ⟨_, _, rfl, reaches_label hm _, Grows.refl _⟩
  | label _ ih => exact (ih _ _).of_rest (recordOpt_grows _ _ _ _) rfl
  | default _ ih => exact ih _ _
  | stmt _ ih => exact (ih _ _).of_rest (evalStmt_grows _ _ _) rfl

/-- A label is tested on the entry state. -/
lemma label_covers {value : Option Region} {rest : Sections} {p : List Event}
    (hvalue : optAll a.condOk value) (hp : p ∈ optPaths value) (hm : Holds entry st)
    (hout : out.length = a.reads.length) :
    lastDef st p = st ∧
      Covers (a.evalSections (.caseLabel value rest) entry acc .record out).2 st p := by
  obtain ⟨hlast, hcovers⟩ := condOk_sound hvalue hp hm hout
  exact ⟨hlast, hcovers.grows (evalSections_grows _ _ _ _)⟩

lemma label_miss {value : Option Region} {rest : Sections} {p : List Event}
    (hvalue : optAll a.condOk value) (hp : p ∈ optPaths value) (hm : Holds entry st)
    (hout : out.length = a.reads.length)
    (hrest : ∀ acc out, out.length = a.reads.length →
      lastDef st q = st ∧ Covers (a.evalSections rest entry acc .record out).2 st q) :
    lastDef st (p ++ q) = st ∧
      Covers (a.evalSections (.caseLabel value rest) entry acc .record out).2 st (p ++ q) := by
  have hlabel : lastDef st p = st ∧
      Covers (a.evalSections (.caseLabel value rest) entry acc .record out).2 st p :=
    label_covers hvalue hp hm hout
  obtain ⟨hlast, hcovers⟩ := hlabel
  obtain ⟨hlast', hcovers'⟩ :=
    hrest { acc with cur := union acc.cur (some entry) } (a.recordOpt value entry .record out)
      ((recordOpt_grows value entry .record out).length.trans hout)
  rw [lastDef_append, hlast]
  refine ⟨hlast', hcovers.append ?_⟩
  rw [hlast]
  exact hcovers'

lemma caseEntry_covers {entered : Prop} (h : CaseEntry s q target)
    (hfits : a.SectionsFit entered s) (hm : Holds entry st) (acc : SwitchFlow)
    (hout : out.length = a.reads.length) :
    lastDef st q = st ∧ Covers (a.evalSections s entry acc .record out).2 st q := by
  induction h generalizing entered acc out with
  | hit hp => exact label_covers hfits.1 hp hm hout
  | miss hp _ ih => exact label_miss hfits.1 hp hm hout fun acc out hout => ih hfits.2 acc hout
  | default _ ih => exact ih (show a.SectionsFit True _ from hfits) _ hout
  | @stmt stmt _ _ _ _ ih =>
    exact ih hfits.2 _ ((evalStmt_grows stmt (acc.cur.getD entry) out).length.trans hout)

lemma noCase_covers {entered : Prop} (h : NoCase s q) (hfits : a.SectionsFit entered s)
    (hm : Holds entry st) (acc : SwitchFlow) (hout : out.length = a.reads.length) :
    lastDef st q = st ∧ Covers (a.evalSections s entry acc .record out).2 st q := by
  induction h generalizing entered acc out with
  | nil => exact ⟨rfl, covers_nil _ _⟩
  | miss hp _ ih => exact label_miss hfits.1 hp hm hout fun acc out hout => ih hfits.2 acc hout
  | default _ ih => exact ih (show a.SectionsFit True _ from hfits) _ hout
  | @stmt stmt _ _ _ ih =>
    exact ih hfits.2 _ ((evalStmt_grows stmt (acc.cur.getD entry) out).length.trans hout)

lemma evalSections_hasDefault (s : Sections) (entry : Mask) (acc : SwitchFlow) (pass : Pass)
    (out : List Mask) :
    (a.evalSections s entry acc pass out).1.hasDefault = (acc.hasDefault || s.hasDefault) := by
  cases s with
  | nil => simp [evalSections, Sections.hasDefault]
  | caseLabel value rest => exact evalSections_hasDefault rest entry _ pass _
  | defaultLabel rest =>
    rw [evalSections, evalSections_hasDefault rest]
    simp [Sections.hasDefault]
  | stmt stmt rest => exact evalSections_hasDefault rest entry _ pass _

lemma Fits.switchStmt {sections : Sections} (h : a.Fits (.stmt (.switchStmt cond sections))) :
    optAll a.condOk cond ∧ a.SectionsFit False sections := h

/-- Once the labels have been tested, the switch runs on from `target`. -/
lemma switch_enter {sections : Sections} {p es : List Event} {o : Outcome}
    (hfits : a.Fits (.stmt (.switchStmt cond sections))) (hp : p ∈ optPaths cond)
    (harrives : ∀ m st out, Holds m st → a.Arrives sections m {} out target st)
    (hcovers : ∀ m st out, Holds m st → out.length = a.reads.length →
      lastDef st q = st ∧ Covers (a.evalSections sections m {} .record out).2 st q)
    (htarget : a.Sound (.sections target) es o) :
    a.Sound (.stmt (.switchStmt cond sections)) (p ++ q ++ es) (leaveSwitch o) := by
  intro m st out hm hout
  obtain ⟨hlast, hcond⟩ := condOk_sound hfits.switchStmt.1 hp hm hout
  have hout' : (a.recordOpt cond m .record out).length = a.reads.length :=
    (recordOpt_grows cond m .record out).length.trans hout
  obtain ⟨acc, out', heval, ⟨x, hx, hholds⟩, hgrows⟩ := harrives m st _ hm
  obtain ⟨hlast', hlabels⟩ := hcovers m st _ hm hout'
  obtain ⟨hreach, hrest⟩ := htarget m acc x st out' hx hholds (hgrows.length.trans hout')
  rw [← heval] at hreach hrest
  simp only [lastDef_append, hlast, hlast']
  constructor
  · cases o with
    | normal =>
      simp only [evalStmt, leaveSwitch, Flow.exit]
      split_ifs
      · exact reaches_union (.inr hreach)
      · exact reaches_union (.inl (reaches_union (.inr hreach)))
    | brk =>
      simp only [evalStmt, leaveSwitch, Flow.exit]
      split_ifs
      · exact reaches_union (.inl hreach)
      · exact reaches_union (.inl (reaches_union (.inl hreach)))
    | cont | ret => exact hreach
  · refine Covers.append (Covers.append (hcond.grows (evalSections_grows _ _ _ _)) ?_) ?_
    · rw [hlast]
      exact hlabels
    · rw [lastDef_append, hlast, hlast']
      exact hrest

lemma switch_none {sections : Sections} {p : List Event}
    (hfits : a.Fits (.stmt (.switchStmt cond sections))) (hp : p ∈ optPaths cond)
    (hno : NoCase sections q) (hdefault : sections.hasDefault = false) :
    a.Sound (.stmt (.switchStmt cond sections)) (p ++ q) .normal := by
  intro m st out hm hout
  obtain ⟨hlast, hcond⟩ := condOk_sound hfits.switchStmt.1 hp hm hout
  have hout' := (recordOpt_grows (a := a) cond m .record out).length.trans hout
  obtain ⟨hlast', hlabels⟩ := noCase_covers hno hfits.switchStmt.2 hm {} hout'
  rw [lastDef_append, hlast, hlast']
  constructor
  · have hno : (a.evalSections sections m {} .record (a.recordOpt cond m .record out)).1.hasDefault
        = false := by rw [evalSections_hasDefault, hdefault]; rfl
    simp only [evalStmt, Flow.exit, hno]
    exact reaches_union (.inr (reaches_some hm))
  · refine (hcond.grows (evalSections_grows _ _ _ _)).append ?_
    rw [hlast]
    exact hlabels

/-! ### Executions -/

/-- Every execution keeps the invariant. -/
theorem exec_sound (hfew : a.defs.length ≤ maxDefs) {t : Task} {es : List Event} {o : Outcome}
    (h : Exec t es o) (hfits : a.Fits t) : a.Sound t es o := by
  induction h with
  | block _ ih => exact fun m st out hm hout => ih hfits (Flow.pass m) m st out rfl hm hout
  | leaf hp =>
    intro m st out hm hout
    obtain ⟨hholds, hcovers⟩ := leafOk_sound hfew hfits hp hm hout
    exact ⟨reaches_some hholds, hcovers⟩
  | ret hp =>
    intro m st out hm hout
    obtain ⟨hholds, hcovers⟩ := leafOk_sound hfew hfits hp hm hout
    exact ⟨reaches_some hholds, hcovers⟩
  | brk | cont | nop => exact fun m st out hm _ => ⟨reaches_some hm, covers_nil _ _⟩
  | ifThen hp _ ih => exact if_then hfits hp (ih hfits.ifStmt.2.1)
  | ifElse hp _ ih => exact if_else hfits hp (ih hfits.ifStmt.2.2)
  | whileExit hp => exact sound_whileStmt (for_exit hfits.whileStmt hp)
  | whileLeave hp _ hleaves ih =>
    exact sound_whileStmt (for_leave hfits.whileStmt hp (ih hfits.whileStmt.forStmt.2.2.2) hleaves)
  | whileNext hp hexec hrepeats _ ih ihloop =>
    exact while_next hfew hfits hp hexec (ih hfits.whileStmt.forStmt.2.2.2) hrepeats (ihloop hfits)
  | doLeave _ hleaves ih => exact do_leave (ih hfits.doWhile.2.2) hleaves
  | doExit hexec hrepeats hp ih => exact do_exit hfits hexec (ih hfits.doWhile.2.2) hrepeats hp
  | doNext hexec hrepeats hp _ ih ihloop =>
    exact do_next hfits hexec (ih hfits.doWhile.2.2) hrepeats hp (ihloop hfits)
  | forInit hp _ ih => exact for_init hfew hfits hp ih
  | forExit hp => exact for_exit hfits hp
  | forLeave hp _ hleaves ih => exact for_leave hfits hp (ih hfits.forStmt.2.2.2) hleaves
  | forNext hp hexec hrepeats hq _ ih ihloop =>
    exact for_next hfew hfits hp hexec (ih hfits.forStmt.2.2.2) hrepeats hq (ihloop hfits)
  | switchCase hp hentry _ ih =>
    have hsections := hfits.switchStmt.2
    exact switch_enter hfits hp (fun m st out hm => caseEntry_arrives hentry hm {} out)
      (fun m st out hm hout => caseEntry_covers hentry hsections hm {} hout)
      (ih (caseEntry_fits hentry hsections))
  | switchDefault hp hno hdefault _ ih =>
    have hsections := hfits.switchStmt.2
    exact switch_enter hfits hp (fun m st out hm => defaultAt_arrives hdefault hm {} out)
      (fun m st out hm hout => noCase_covers hno hsections hm {} hout)
      (ih (defaultAt_fits hdefault hsections))
  | switchNone hp hno hdefault => exact switch_none hfits hp hno hdefault
  | other hp => exact other_sound hfits hp
  | blockNil =>
    intro flow m st out hflow hm _
    exact ⟨⟨m, hflow, hm⟩, covers_nil _ _⟩
  | blockCons hexec _ ih ihrest => exact block_cons (ih hfits.1) (ihrest (hfits.2 ⟨_, hexec⟩))
  | blockLeave _ ho ih => exact block_leave (ih hfits.1) ho
  | sectionsNil =>
    intro entry acc m st out hacc hm _
    exact ⟨⟨m, hacc, hm⟩, covers_nil _ _⟩
  | sectionsCase _ ih => exact sections_label (ih hfits.2)
  | sectionsDefault _ ih => exact sections_default (ih hfits)
  | @sectionsStmt stmt _ _ _ _ hexec _ ih ihrest =>
    have hends : stmt.EndsNormally := ⟨_, hexec⟩
    have hrest := hfits.2
    rw [true_and, eq_true hends] at hrest
    exact sections_stmt (ih (hfits.1 trivial)) (ihrest hrest)
  | sectionsLeave _ ho ih => exact sections_leave (ih (hfits.1 trivial)) ho

/-- A body whose walk is sound keeps the continues that lose nothing. -/
lemma keepsContinues (hfew : a.defs.length ≤ maxDefs) (hfits : a.Fits (.stmt body))
    (h : ContinueLosesNothing body) : a.KeepsContinues body := by
  intro es hexec m st hm
  obtain ⟨es', o, hexec', ho, hlast⟩ := h es hexec
  have hlast' : lastDef st es' = lastDef st es := by
    rw [lastDef_eq_or st es', hlast, ← lastDef_eq_or]
  obtain ⟨hreach, -⟩ := exec_sound hfew hexec' hfits m st
    (List.replicate a.reads.length 0#128) hm List.length_replicate
  rw [evalStmt_flow, hlast'] at hreach
  rcases ho with rfl | rfl
  · exact reaches_union (.inl hreach)
  · exact reaches_union (.inr hreach)

mutual

theorem stmt_fits (hfew : a.defs.length ≤ maxDefs) {s : Stmt}
    (h : s.Check a.leafOk a.condOk ContinueLosesNothing) : a.Fits (.stmt s) := by
  cases s with
  | block stmts => exact block_fits hfew (b := stmts) h
  | leaf node => exact h
  | ret node => exact h
  | brk | cont | nop => trivial
  | ifStmt cond body orElse => exact ⟨h.1, stmt_fits hfew h.2.1, stmt_fits hfew h.2.2⟩
  | whileStmt cond body => exact ⟨h.1, stmt_fits hfew h.2⟩
  | doWhile cond body =>
    have hbody := stmt_fits hfew h.2.2
    exact ⟨h.1, keepsContinues hfew hbody h.2.1, hbody⟩
  | forStmt init cond iter body => exact ⟨h.1, h.2.1, h.2.2.1, stmt_fits hfew h.2.2.2⟩
  | switchStmt cond sections => exact ⟨h.1, sections_fit hfew h.2⟩
  | other node => exact h

theorem block_fits (hfew : a.defs.length ≤ maxDefs) {b : Block}
    (h : b.Check a.leafOk a.condOk ContinueLosesNothing) : a.Fits (.block b) := by
  cases b with
  | nil => trivial
  | cons stmt rest => exact ⟨stmt_fits hfew h.1, fun hends => block_fits hfew (h.2 hends)⟩

theorem sections_fit (hfew : a.defs.length ≤ maxDefs) {s : Sections} {entered : Prop}
    (h : s.Check a.leafOk a.condOk ContinueLosesNothing entered) : a.SectionsFit entered s := by
  cases s with
  | nil => trivial
  | caseLabel value rest => exact ⟨h.1, sections_fit hfew h.2⟩
  | defaultLabel rest =>
    have hrest : a.SectionsFit True rest := sections_fit hfew h
    exact hrest
  | stmt stmt rest => exact ⟨fun hin => stmt_fits hfew (h.1 hin), sections_fit hfew h.2⟩

end

end Analyzer

/-- Some path of the body comes to the read with `last` as the definition executed last. -/
def LastBefore (body : Block) (i : Nat) (last : Option Nat) : Prop :=
  ∃ es o pre post, Exec (.block body) es o ∧ es = pre ++ .read i :: post ∧ lastDef none pre = last

/-- What the analysis promises about a local. -/
structure ReachesSoundly (body : Block) (decl : LocalDeclaration) (mutations : List Mutation)
    (reads : List ByteRange) : Prop where
  /-- The definition executed last before a read is in the mask recorded for the read. -/
  mask : (buildDefs decl mutations).length ≤ maxDefs → ∀ i d, LastBefore body i (some d) →
    (recorded ((⟨buildDefs decl mutations, reads⟩ : Analyzer).masks body) i).getLsbD d
  /-- A single reported definition is the one executed last on every path to the read. -/
  sole : ∀ i r d, (reachingDefs body decl mutations reads).perRead[i]? = some (r, some d) →
    ∀ last, LastBefore body i last → last = some d

lemma eq_of_soleDef {m : Mask} {d d' : Nat} (h : soleDef m = some d) (hd : m.getLsbD d') :
    d' = d := by
  have hmem : d' ∈ (List.range maxDefs).filter (fun i => m.getLsbD i) :=
    List.mem_filter.mpr ⟨List.mem_range.mpr (BitVec.lt_of_getLsbD hd), hd⟩
  unfold soleDef at h
  generalize (List.range maxDefs).filter (fun i => m.getLsbD i) = found at h hmem
  match found with
  | [] => cases h
  | [i] =>
    cases h
    exact List.mem_singleton.mp hmem
  | _ :: _ :: _ => cases h

/-- On a path from the entry, the mask of a read holds the definition executed last. -/
theorem masks_hold {a : Analyzer} {body : Block} (hfew : a.defs.length ≤ maxDefs)
    (hcheck : body.Check a.leafOk a.condOk ContinueLosesNothing) {i : Nat} {last : Option Nat}
    (h : LastBefore body i last) : Holds (recorded (a.masks body) i) last := by
  obtain ⟨es, o, pre, post, hexec, hes, rfl⟩ := h
  have hentry : Holds (0#128) none := nofun
  have hfits : a.Fits (.block body) := Analyzer.block_fits hfew hcheck
  obtain ⟨-, hcovers⟩ := Analyzer.exec_sound hfew hexec hfits (Flow.pass 0#128) 0#128 none
    (List.replicate a.reads.length 0#128) rfl hentry List.length_replicate
  exact hcovers pre i post hes

/-- A statement that defines the local and reads nothing. -/
def Region.declares (r : Region) : Bool :=
  r.evaluation.paths.all fun p => !p.isEmpty && p.all fun e => e.defines.isSome

/-- A body that starts with the declaration has met a definition before every read. -/
lemma not_lastBefore_none {node : Region} {rest : Block} (h : node.declares) (i : Nat) :
    ¬ LastBefore (.cons (.leaf node) rest) i none := by
  rintro ⟨es, o, pre, post, hexec, hes, hnone⟩
  cases hexec with
  | blockLeave hleaf ho =>
    cases hleaf
    exact ho rfl
  | @blockCons _ _ p es' _ hleaf _ =>
    cases hleaf with | leaf hp =>
    have hpath := (Bool.and_eq_true _ _).mp (List.all_eq_true.mp h p hp)
    have hnoread : ∀ q, p ≠ pre ++ .read i :: q := by
      intro q hq
      have hread := List.all_eq_true.mp hpath.2 (.read i) (by simp [hq])
      cases hread
    have hprefix : ∃ mid, pre = p ++ mid := by
      rcases List.append_eq_append_iff.mp hes with ⟨mid, rfl, -⟩ | ⟨mid, hp', hmid⟩
      · exact ⟨mid, rfl⟩
      · cases mid with
        | nil => exact ⟨[], by simpa using hp'.symm⟩
        | cons e mid =>
          rw [List.cons_append, List.cons.injEq] at hmid
          obtain ⟨rfl, -⟩ := hmid
          exact absurd hp' (hnoread mid)
    obtain ⟨mid, rfl⟩ := hprefix
    rw [lastDef_append, lastDef_eq_or, Option.or_eq_none_iff] at hnone
    cases p with
    | nil => simp at hpath
    | cons e p =>
      have hdefines := List.all_eq_true.mp hpath.2 e (by simp)
      have hlast := hnone.2
      rw [lastDef_cons, lastDef_eq_or, Option.or_eq_none_iff] at hlast
      simp [Option.or_eq_none_iff.mp hlast.2] at hdefines

/-- `var x : int = 0; while (Again(x)) { x = 1; if (Stop()) break; }`
`do { if (Skip()) continue; } while (More()); Use(x); return; if (Get(out x)) {}` -/
def loopBody : Block :=
  .cons (.leaf ⟨⟨0, 16⟩, .define 0⟩)
    (.cons (.whileStmt (some ⟨⟨24, 32⟩, .read 0⟩)
      (.block (.cons (.leaf ⟨⟨36, 42⟩, .define 1⟩)
        (.cons (.ifStmt (some ⟨⟨47, 53⟩, .skip⟩) .brk .nop) .nil))))
      (.cons (.doWhile (some ⟨⟨100, 106⟩, .skip⟩)
        (.block (.cons (.ifStmt (some ⟨⟨73, 79⟩, .skip⟩) .cont .nop) .nil)))
        (.cons (.leaf ⟨⟨109, 116⟩, .read 1⟩)
          (.cons (.ret ⟨⟨117, 124⟩, .skip⟩)
            (.cons (.ifStmt (some ⟨⟨129, 139⟩, .define 2⟩) (.block .nil) .nop) .nil)))))

/-- `x = 1` as a plain assignment. -/
def plainAssign (node value stmt : ByteRange) : Mutation where
  kind := .assignTarget
  node := node
  directAssignValue := some value
  exprStmt := some stmt

/-- `{ if (Skip()) continue; }` -/
lemma continueLosesNothing_skip {r : ByteRange} :
    ContinueLosesNothing (.block (.cons (.ifStmt (some ⟨r, .skip⟩) .cont .nop) .nil)) := by
  intro es hexec
  have hevents : es = [] := by
    cases hexec with | block hexec =>
    cases hexec with
    | blockCons _ hrest => cases hrest
    | blockLeave hif _ =>
      cases hif with
      | ifThen hp hbody =>
        cases hbody
        simpa [optPaths, Evaluation.paths] using hp
      | ifElse _ hbody => cases hbody
  subst hevents
  have helse : Exec (.stmt (.ifStmt (some ⟨r, .skip⟩) .cont .nop)) ([] ++ []) .normal :=
    .ifElse (List.mem_singleton.mpr rfl) .nop
  exact ⟨[], .normal, .block (.blockCons helse .blockNil), .inl rfl, rfl⟩

/-- `var x : int; x = 1; if (Get(out x)) {} Use(x);` -/
def outArgInCondition : Block :=
  .cons (.leaf ⟨⟨0, 12⟩, .define 0⟩)
    (.cons (.leaf ⟨⟨13, 19⟩, .define 1⟩)
      (.cons (.ifStmt (some ⟨⟨24, 30⟩, .define 2⟩) (.block .nil) .nop)
        (.cons (.leaf ⟨⟨35, 42⟩, .read 0⟩) .nil)))

end WitcherScriptLanguage
