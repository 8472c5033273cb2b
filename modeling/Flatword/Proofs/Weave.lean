import Flatword.Proofs.Header

/-!
# How the code of statements is put together

The code of a statement is woven from the code of its clauses, each lowered in a scope of its own, and from
labels, jumps and the like.
-/

namespace Flatword

theorem Clause.ground {clause : Clause} (h : clause.isConst = false) (f : Frame) (s : Scope) :
    (outcome clause.step f s).2.ground = s.ground := by
  cases clause with
  | effect e => unfold step Lower.effect; exact Lower.Grounded.ground f s
  | const e => simp [isConst] at h
  | condition e b => unfold step Lower.condition; exact Lower.Grounded.ground f s
  | value e => unfold step Lower.returnValue; exact Lower.Grounded.ground f s

/-- Whether an instruction only marks a place, or leads the run elsewhere. -/
def Instr.isControl : Instr → Bool
  | .label _ | .jump _ | .comment _ | .ret | .finish | .stop => true
  | _ => false

def Session.plan (s : Session) : Table :=
  { s.table with slots := s.table.slots.map Slot.unmarked }

theorem Session.plan_eq {s t : Session} (h : t.table.bare = s.table.bare)
    (hslots : t.table.slots.map Slot.unmarked = s.table.slots.map Slot.unmarked) :
    t.plan = s.plan := by
  have hnext : t.table.bare.next = s.table.bare.next := congrArg Table.next h
  have hnext : t.table.next = s.table.next := hnext
  simp only [plan, hslots, hnext]

namespace Emit

variable {b : Lower.Branch} {code : Code} {function : Option String} {line : Line} {line? : Option Line}
  {s : Session}

/-- Code that is woven, while the session changes, from clauses of a kind and from control
instructions. -/
inductive Woven (function : Option String) (K : Clause → Prop) : Session → Code → Session → Prop
  | nil (s : Session) : Woven function K s [] s
  | append {s t u code code'} (h : Woven function K s code t)
      (h' : Woven function K t code' u) : Woven function K s (code ++ code') u
  | control {s instr} (h : instr.isControl = true) :
      Woven function K s [instr] s
  | number (s : Session) : Woven function K s [] s.newJump.2
  | declared (s : Session) (asmName : String) :
      Woven function K s [] { s with table := s.table.markDeclared asmName }
  | clause {s clause line code t} (hK : K clause)
      (h : Gives (Lower.whole clause.step) (clause.frame function line) (.start s) code t) :
      Woven function K s code t.session

variable {r : Routine} {p q : Progress} {code : Code} {K : Clause → Prop}

theorem Woven.plan {s t : Session} (h : Woven function K s code t)
    (hK : ∀ clause, K clause → clause.isConst = false) : t.plan = s.plan := by
  induction h with
  | nil | control | number => rfl
  | append _ _ ih ih' => exact ih'.trans ih
  | declared s asmName =>
    exact Session.plan_eq (Table.bare_markDeclared s.table asmName)
      (Table.map_updateAsm Slot.unmarked ({ · with isDeclared := true }) _ _ fun _ _ _ => rfl)
  | @clause s clause line code t hclause h =>
    have hsnd : (outcome clause.step (clause.frame function line) (.start s)).2 = t := by
      rw [← Lower.outcome_whole_snd]
      exact congrArg Prod.snd h
    have hground := Clause.ground (hK clause hclause) (clause.frame function line) (.start s)
    have := clause.sentence.steady
    have hbare := Lower.Steady.bare (m := clause.step) (clause.frame function line) (.start s)
    rw [hsnd] at hground hbare
    exact Session.plan_eq hbare (congrArg Ground.slots hground)

def Weaves (K : Clause → Prop) (m : Emit Code) : Prop :=
  ∀ ⦃r : Routine⦄ ⦃p : Progress⦄ ⦃code : Code⦄ ⦃q : Progress⦄, Gives m r p code q →
    Woven (r.function.map Function.name) K p.session code q.session

theorem gives_inScope {k : Lower Code} {c : Bool} :
    Gives (inScope line k c) r p code q ↔
      ∃ t, Gives (Lower.whole k) (frame r line c) (.start p.session) code t ∧
        q = { p with session := t.session } := by
  unfold Gives
  rw [outcome_inScope]
  rcases outcome (Lower.whole k) (frame r line c) (.start p.session) with ⟨_ | a, t⟩
  · simp
  · simp [eq_comm]

theorem gives_newJump {id : String} : Gives newJump r p id q ↔
    id = p.session.newJump.1 ∧ q = { p with session := p.session.newJump.2 } := by
  simp only [newJump, gives_bind, gives_get, gives_set, gives_pure]
  constructor
  · rintro ⟨_, _, ⟨rfl, rfl⟩, _, _, rfl, rfl, rfl⟩
    exact ⟨rfl, rfl⟩
  · rintro ⟨rfl, rfl⟩
    exact ⟨_, _, ⟨rfl, rfl⟩, ⟨⟩, _, rfl, rfl, rfl⟩

theorem gives_comment (h : Gives (comment line?) r p code q) :
    q.session = p.session ∧ (code = [] ∨ ∃ text, code = [.comment text]) := by
  rw [comment, gives_get_bind] at h
  split at h
  · split at h
    · simp only [gives_bind, gives_set, gives_read, gives_pure] at h
      obtain ⟨_, _, rfl, _, _, ⟨rfl, rfl⟩, rfl, rfl⟩ := h
      exact ⟨rfl, .inr ⟨_, rfl⟩⟩
    · obtain ⟨rfl, rfl⟩ := gives_pure.mp h
      exact ⟨rfl, .inl rfl⟩
  · obtain ⟨rfl, rfl⟩ := gives_pure.mp h
    exact ⟨rfl, .inl rfl⟩

theorem weaves_comment (line? : Option Line) : Weaves K (comment line?) := by
  intro r p code q h
  obtain ⟨hsession, rfl | ⟨text, rfl⟩⟩ := gives_comment h <;> rw [hsession]
  · exact .nil _
  · exact .control rfl

theorem woven_control (h : ∀ instr ∈ code, instr.isControl = true) : Woven function K s code s := by
  induction code with
  | nil => exact .nil s
  | cons instr code ih =>
    exact .append (.control (h instr (by simp))) (ih fun x hx => h x (by simp [hx]))

theorem weaves_pure (h : ∀ instr ∈ code, instr.isControl = true) : Weaves K (pure code) := by
  intro r p _ q hpure
  obtain ⟨rfl, rfl⟩ := gives_pure.mp hpure
  exact woven_control h

theorem weaves_commented {m : Emit Code} (h : Weaves K m) : Weaves K (commented line? m) := by
  intro r p code q hm
  simp only [commented, gives_bind, gives_pure] at hm
  obtain ⟨note, p₁, hnote, code, p₂, hcode, rfl, rfl⟩ := hm
  exact .append (weaves_comment line? hnote) (h hcode)

section Clauses

variable {e : Expr} {init test step : Option Expr}

theorem weaves_clause {clause : Clause} (hK : K clause) (line : Line) :
    Weaves K (inScope line clause.step clause.isConst) := by
  intro r p code q h
  obtain ⟨t, ht, rfl⟩ := gives_inScope.mp h
  exact .clause hK ht

theorem weaves_expression (hK : K (.effect e.asStatement)) : Weaves K (expression e) :=
  weaves_clause hK e.line

theorem weaves_condition (hK : K (.condition e b)) : Weaves K (condition e b) :=
  weaves_clause hK e.line

theorem weaves_optionalExpression (hK : ∀ e ∈ init, K (.effect e.asStatement)) :
    Weaves K (optionalExpression init) := by
  cases init with
  | none => exact weaves_pure (by simp)
  | some e => exact weaves_expression (hK e rfl)

theorem weaves_optionalCondition (hK : ∀ e ∈ test, K (.condition e b)) :
    Weaves K (optionalCondition test b) := by
  cases test with
  | none => exact weaves_pure (by simp)
  | some e => exact weaves_condition (hK e rfl)

theorem gives_declaration {tokens : List Token} {r : Routine} {p q : Progress} {code : Code}
    (h : Gives (do declaration tokens; return []) r p code q) : code = [] ∧ ∃ names : List String,
      q = { p with session.table := names.foldl Table.markDeclared p.session.table } := by
  simp only [declaration, functionName?, modifySession, gives_bind, gives_read, gives_pure,
    gives_modify] at h
  obtain ⟨_, _, ⟨_, _, ⟨_, _, ⟨rfl, rfl⟩, rfl, rfl⟩, rfl⟩, rfl, rfl⟩ := h
  exact ⟨rfl, _, rfl⟩

theorem weaves_declaration (tokens : List Token) :
    Weaves K (do declaration tokens; return []) := by
  have hnames (function : Option String) (names : List String) (s : Session) :
      Woven function K s [] { s with table := names.foldl Table.markDeclared s.table } := by
    induction names generalizing s with
    | nil => exact .nil s
    | cons name names ih => exact .append (.declared s name) (ih _)
  intro r p code q h
  obtain ⟨rfl, names, rfl⟩ := gives_declaration h
  exact hnames _ names p.session

theorem weaves_returnStatement {value : Option Expr} (hK : ∀ e ∈ value, K (.value e)) :
    Weaves K (returnStatement value line) := by
  intro r p code q h
  rw [returnStatement, gives_read_bind] at h
  split at h
  · exact absurd h gives_throw
  · split at h
    · exact weaves_pure (by simp [Instr.isControl]) h
    · exact absurd h gives_throw
  · split at h
    · exact absurd h gives_throw
    · exact weaves_clause (hK _ rfl) line h

theorem weaves_jumpInLoop {loop : Option String} {label : LoopLabels → String} {cause : Cause} :
    Weaves K (jumpInLoop loop label line cause) := by
  unfold jumpInLoop
  split
  · exact weaves_pure (by simp [Instr.isControl])
  · exact fun _ _ _ _ h => absurd h gives_throw

theorem weaves_goto {target : String} : Weaves K (goto target line) := by
  intro r p code q h
  rw [goto, gives_read_bind] at h
  split at h
  · exact weaves_pure (by simp [Instr.isControl]) h
  · exact absurd h gives_throw

end Clauses

/-! ## Control structures -/

section Structures

variable {e : Expr} {init test step : Option Expr} {body : String → Emit Code}

theorem weaves_ifElse {yes : Emit Code} {otherwise : Option (Emit Code)}
    (hK : ∀ b, K (.condition e b)) (hyes : Weaves K yes) (hno : ∀ no ∈ otherwise, Weaves K no) :
    Weaves K (ifElse e yes otherwise) := by
  intro r p code q h
  cases otherwise with
  | none =>
    simp only [ifElse, gives_bind, gives_newJump, gives_pure] at h
    obtain ⟨id, p₁, ⟨-, rfl⟩, tested, p₂, htest, first, p₃, hfirst, _, _, ⟨rfl, rfl⟩, rfl, rfl⟩ := h
    have htest := (Woven.number p.session).append (weaves_condition (hK _) htest)
    exact .append (.append (.append (.append htest (.control rfl)) (hyes hfirst)) (.nil _))
      (.control rfl)
  | some no =>
    simp only [ifElse, gives_bind, gives_newJump, gives_pure] at h
    obtain ⟨id, p₁, ⟨-, rfl⟩, tested, p₂, htest, first, p₃, hfirst, second, p₄, hsecond, _, _,
      ⟨rfl, rfl⟩, rfl, rfl⟩ := h
    have htest := (Woven.number p.session).append (weaves_condition (hK _) htest)
    exact .append (.append (.append (.append htest (.control rfl)) (hyes hfirst))
      (.append (woven_control (by simp [Instr.isControl])) (hno no rfl hsecond))) (.control rfl)

theorem weaves_whileLoop (hK : ∀ b, K (.condition e b)) (hbody : ∀ id, Weaves K (body id)) :
    Weaves K (whileLoop e body) := by
  intro r p code q h
  simp only [whileLoop, gives_bind, gives_newJump, gives_pure] at h
  obtain ⟨id, p₁, ⟨-, rfl⟩, tested, p₂, htest, code, p₃, hcode, rfl, rfl⟩ := h
  exact .append (.append (.append (.append (.append (.number p.session) (.control rfl))
    (weaves_condition (hK _) htest)) (.control rfl)) (hbody id hcode))
    (woven_control (by simp [Instr.isControl]))

theorem weaves_doLoop (hK : ∀ b, K (.condition e b)) (hbody : ∀ id, Weaves K (body id)) :
    Weaves K (doLoop e body) := by
  intro r p code q h
  simp only [doLoop, gives_bind, gives_newJump, gives_pure] at h
  obtain ⟨id, p₁, ⟨-, rfl⟩, code, p₂, hcode, note, p₃, hnote, tested, p₄, htest, rfl, rfl⟩ := h
  exact .append (.append (.append (.append (.append (.append (.number p.session) (.control rfl))
    (hbody id hcode)) (.control rfl)) (weaves_comment _ hnote)) (weaves_condition (hK _) htest))
    (.control rfl)

theorem weaves_forLoop (hinit : ∀ x ∈ init, K (.effect x.asStatement))
    (htest : ∀ x ∈ test, ∀ b, K (.condition x b)) (hstep : ∀ x ∈ step, K (.effect x.asStatement))
    (hbody : ∀ id, Weaves K (body id)) : Weaves K (forLoop init test step body) := by
  intro r p code q h
  simp only [forLoop, gives_bind, gives_newJump, gives_pure] at h
  obtain ⟨id, p₁, ⟨-, rfl⟩, first, p₂, hfirst, tested, p₃, htested, code, p₄, hcode, last, p₅, hlast,
    rfl, rfl⟩ := h
  have hfirst := (Woven.number p.session).append (weaves_optionalExpression hinit hfirst)
  exact .append (.append (.append (.append (.append (.append (.append hfirst (.control rfl))
    (weaves_optionalCondition (fun x hx => htest x hx _) htested)) (.control rfl))
    (hbody id hcode)) (.control rfl)) (weaves_optionalExpression hstep hlast))
    (woven_control (by simp [Instr.isControl]))

end Structures

end Emit

namespace Stmt

open Emit

variable {K : Clause → Prop}

mutual

theorem weaves_emit (loop : Option String) :
    (stmt : Stmt) → (∀ clause, stmt.Uses clause → K clause) → Weaves K (stmt.emit loop)
  | expression e, hK => weaves_commented (weaves_expression (hK _ rfl))
  | const e, hK => weaves_commented (weaves_clause (hK (.const e) rfl) e.line)
  | declaration tokens, _ => weaves_declaration tokens
  | structDefinition _ _ _, _ => weaves_pure (by simp)
  | ifElse e thenBranch elseBranch line, hK =>
    weaves_commented (weaves_ifElse (fun b => hK _ (.inl ⟨b, rfl⟩))
      (weaves_emitBlock loop thenBranch fun clause h => hK clause (.inr (.inl h)))
      (weaves_emitElse loop elseBranch fun clause h => hK clause (.inr (.inr h))))
  | whileLoop e body line, hK =>
    weaves_commented (weaves_whileLoop (fun b => hK _ (.inl ⟨b, rfl⟩)) fun id =>
      weaves_emitBlock (some id) body fun clause h => hK clause (.inr h))
  | doLoop body e line, hK =>
    weaves_commented (weaves_doLoop (fun b => hK _ (.inl ⟨b, rfl⟩)) fun id =>
      weaves_emitBlock (some id) body fun clause h => hK clause (.inr h))
  | forLoop init e step body line, hK =>
    weaves_commented (weaves_forLoop (fun x hx => hK _ (.inl ⟨x, hx, rfl⟩))
      (fun x hx b => hK _ (.inr (.inl ⟨x, hx, b, rfl⟩)))
      (fun x hx => hK _ (.inr (.inr (.inr ⟨x, hx, rfl⟩)))) fun id =>
        weaves_emitBlock (some id) body fun clause h => hK clause (.inr (.inr (.inl h))))
  | breakLoop line, _ | continueLoop line, _ => weaves_commented weaves_jumpInLoop
  | goto target line, _ => weaves_commented weaves_goto
  | label name line, _ | exit line, _ | halt line, _ =>
    weaves_commented (weaves_pure (by simp [Instr.isControl]))
  | ret value line, hK =>
    weaves_commented (weaves_returnStatement fun x hx => hK _ ⟨x, hx, rfl⟩)
  | block body, hK => weaves_emitBlock loop body hK

theorem weaves_emitBlock (loop : Option String) :
    (body : List Stmt) → (∀ clause, BlockUses body clause → K clause) →
      Weaves K (emitBlock loop body)
  | [], _ => weaves_pure (by simp)
  | stmt :: rest, hK => by
    intro r p code q h
    simp only [emitBlock, gives_bind, gives_pure] at h
    obtain ⟨first, p₁, hfirst, second, p₂, hsecond, rfl, rfl⟩ := h
    exact .append (stmt.weaves_emit loop (fun clause h => hK clause (.inl h)) hfirst)
      (weaves_emitBlock loop rest (fun clause h => hK clause (.inr h)) hsecond)

theorem weaves_emitElse (loop : Option String) :
    (body : Option (List Stmt)) → (∀ clause, ElseUses body clause → K clause) →
      ∀ other ∈ emitElse loop body, Weaves K other
  | none, _ => by simp [emitElse]
  | some body, hK => by
    have hbody := weaves_emitBlock loop body hK
    simpa [emitElse] using hbody

end

end Stmt

end Flatword
