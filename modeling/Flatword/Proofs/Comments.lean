import Flatword.Proofs.Jumps

/-!
# Comments in code

Lowering does not look at the options, and the code of expressions has no comments. So verbose code is
plain code with comments put in between, and nothing else depends on whether there are any.
-/

set_option synthInstance.maxSize 500

namespace Flatword

namespace Lower

variable {α β : Type} {f : Frame} {s : Scope}

/-! ## Options do not matter -/

class Blind (m : Lower α) : Prop where
  options : ∀ f s o, outcome m f (s.withOptions o) = ((outcome m f s).1, (outcome m f s).2.withOptions o)

instance (m : Lower α) [Orderly m] : Blind m :=
  ⟨Orderly.options⟩

instance (m : Lower α) (k : α → Lower β) [Blind m] [∀ a, Blind (k a)] : Blind (m >>= k) where
  options f s o := by
    rw [outcome_bind, outcome_bind, Blind.options]
    rcases outcome m f s with ⟨_ | a, u⟩
    · rfl
    · exact Blind.options f u o

theorem Blind.kept {m : Lower α} [Blind m] : (outcome m f s).2.session.options = s.session.options := by
  have h := Blind.options (m := m) f s s.session.options
  have hs : s.withOptions s.session.options = s := rfl
  rw [hs] at h
  rw [congrArg Prod.snd h]
  rfl

theorem blind_get {k : Scope → Lower β} (hk : ∀ s, Blind (k s))
    (hsame : ∀ (s : Scope) o, k (s.withOptions o) = k s) : Blind (get >>= k) where
  options f s o := by
    have h := (hk s).options f s o
    rw [← hsame s o] at h
    simpa [outcome_bind, hsame] using h

instance : Blind allowReuse := ⟨fun _ _ _ => rfl⟩

instance : Blind takePost := ⟨fun _ _ _ => rfl⟩

instance (target : Slot) (value : Word) : Blind (recordConstant target value) := by
  unfold recordConstant
  split
  · exact ⟨fun _ _ _ => rfl⟩
  · infer_instance

instance : Blind finish :=
  blind_get (fun s => ⟨fun f t o => by split <;> rfl⟩) fun _ _ => rfl

theorem Sentence.blind {k : Lower Code} (h : Sentence k) : Blind (whole k) := by
  unfold whole
  cases h with
  | effect e => unfold Lower.effect; infer_instance
  | constEffect e => unfold Lower.constEffect; infer_instance
  | returnValue e => unfold Lower.returnValue; infer_instance
  | condition e b =>
    have (code : Code) : Blind (do
        if !(← get).post.isEmpty then
          fail .postStepInCondition
        return code) :=
      blind_get (fun s => inferInstance) fun _ _ => rfl
    unfold Lower.condition
    infer_instance

end Lower

/-! ## Two runs -/

/-- Code without its comments. -/
def Code.spoken (code : Code) : Code :=
  code.filter fun instr => !instr.isComment

/-- Verbose code and plain code are the same but for comments, and the plain code has none where the
session is in order. -/
class Code.Matches (fit : Prop) (verbose plain : Code) : Prop where
  same : verbose.spoken = plain.spoken
  silent : fit → plain.spoken = plain

section Matches

variable {fit : Prop} {verbose plain verbose' plain' : Code}

instance : Code.Matches fit [] [] :=
  ⟨rfl, fun _ => rfl⟩

instance (instr : Instr) [hinstr : SameBool instr.isComment false] [h : Code.Matches fit verbose plain] :
    Code.Matches fit (instr :: verbose) (instr :: plain) where
  same := by simpa [Code.spoken, hinstr.eq] using h.same
  silent hfit := by simpa [Code.spoken, hinstr.eq] using h.silent hfit

instance [h : Code.Matches fit verbose plain] [h' : Code.Matches fit verbose' plain'] :
    Code.Matches fit (verbose ++ verbose') (plain ++ plain') where
  same := by
    have h := h.same
    have h' := h'.same
    simp only [Code.spoken, List.filter_append] at h h' ⊢
    rw [h, h']
  silent hfit := by
    have h := h.silent hfit
    have h' := h'.silent hfit
    simp only [Code.spoken, List.filter_append] at h h' ⊢
    rw [h, h']

end Matches

/-- A session with comments turned on or off. -/
def Session.withVerbose (s : Session) (verbose : Bool) : Session :=
  s.withOptions { s.options with verbose }

/-- Two runs succeed with results that belong together, or fail alike. -/
inductive Alike {ε α : Type} (R : α → α → Prop) : Except ε α → Except ε α → Prop
  | ok {a b} (h : R a b) : Alike R (.ok a) (.ok b)
  | error (e : ε) : Alike R (.error e) (.error e)

namespace Emit

variable {α β : Type} {fit : Prop}

/-- Without comments, the second step does what the first one does, with a result that belongs to its
result. -/
class Echoes (fit : Prop) (R : α → α → Prop) (m m' : Emit α) : Prop where
  run : ∀ r (p : Progress) c, (fit → p.session.Fit) →
    p.session.Leads (outcome m r p).2.session ∧
    Alike R (outcome m r p).1 (outcome m' r ⟨p.session.withVerbose false, c⟩).1 ∧
    (outcome m' r ⟨p.session.withVerbose false, c⟩).2 =
      ⟨(outcome m r p).2.session.withVerbose false, c⟩

theorem echoes_same {m : Emit α} (hleads : ∀ r (p : Progress), p.session.Leads (outcome m r p).2.session)
    (h : ∀ r p c, outcome m r ⟨p.session.withVerbose false, c⟩ =
      ((outcome m r p).1, ⟨(outcome m r p).2.session.withVerbose false, c⟩)) : Echoes fit Eq m m where
  run r p c _ := by
    refine ⟨hleads r p, ?_⟩
    rw [h]
    rcases (outcome m r p).1 with e | a
    · exact ⟨.error e, rfl⟩
    · exact ⟨.ok rfl, rfl⟩

instance : Echoes fit Eq (read : Emit Routine) read :=
  echoes_same (fun _ p => .refl p.session) fun _ _ _ => rfl

instance : Echoes fit Eq newJump newJump :=
  echoes_same (fun _ p => .move (.number p.session)) fun _ _ _ => rfl

instance (tokens : List Token) : Echoes fit Eq (declaration tokens) (declaration tokens) :=
  echoes_same (fun _ p => leads_foldl_markDeclared _ p.session) fun _ _ _ => rfl

theorem echoes_bind {R : α → α → Prop} {Q : β → β → Prop} {m m' : Emit α} {k k' : α → Emit β}
    [hm : Echoes fit R m m'] (hk : ∀ a b, R a b → Echoes fit Q (k a) (k' b)) :
    Echoes fit Q (m >>= k) (m' >>= k') where
  run r p c hp := by
    obtain ⟨hleads, halike, hsame⟩ := hm.run r p c hp
    rw [outcome_bind, outcome_bind]
    generalize outcome m r p = x at hleads halike hsame ⊢
    generalize outcome m' r _ = y at halike hsame ⊢
    obtain ⟨x, q⟩ := x
    obtain ⟨y, _⟩ := y
    obtain rfl := hsame
    cases halike with
    | error e => exact ⟨hleads, .error e, rfl⟩
    | ok hab =>
      obtain ⟨hnext, hrest⟩ := (hk _ _ hab).run r q c fun hfit => (hp hfit).leads hleads
      exact ⟨hleads.trans hnext, hrest⟩

instance {Q : β → β → Prop} (m : Emit α) (k k' : α → Emit β) [Echoes fit Eq m m]
    [hk : ∀ a, Echoes fit Q (k a) (k' a)] : Echoes fit Q (m >>= k) (m >>= k') :=
  echoes_bind (R := Eq) fun a _ hab => hab ▸ hk a

instance (m m' : Emit Code) (k k' : Code → Emit Code) [Echoes fit (Code.Matches fit) m m']
    [hk : ∀ x : { x : Code × Code // Code.Matches fit x.1 x.2 },
      Echoes fit (Code.Matches fit) (k x.1.1) (k' x.1.2)] :
    Echoes fit (Code.Matches fit) (m >>= k) (m' >>= k') :=
  echoes_bind fun a b hab => hk ⟨(a, b), hab⟩

instance (x : { x : Code × Code // Code.Matches fit x.1 x.2 }) : Code.Matches fit x.1.1 x.1.2 := x.2

instance (verbose plain : Code) [h : Code.Matches fit verbose plain] :
    Echoes fit (Code.Matches fit) (pure verbose) (pure plain) :=
  ⟨fun _ p _ _ => ⟨.refl p.session, .ok h, rfl⟩⟩

instance {R : α → α → Prop} (line : Line) (cause : Cause) :
    Echoes fit R (fail line cause) (fail line cause) :=
  ⟨fun _ p _ _ => ⟨.refl p.session, .error _, rfl⟩⟩

instance {R : α → α → Prop} (c : Prop) [Decidable c] (m m' : Emit α) [Echoes fit R m m]
    [Echoes fit R m' m'] : Echoes fit R (if c then m else m') (if c then m else m') := by
  split <;> assumption

/-! ## Statements -/

/-- The comment of a line is the only thing that the options decide. -/
instance (line? : Option Line) : Echoes fit (Code.Matches fit) (comment line?) (comment line?) where
  run r p c _ := by
    cases line? with
    | none => exact ⟨.refl p.session, .ok inferInstance, rfl⟩
    | some line =>
      have hplain : outcome (comment (some line)) r ⟨p.session.withVerbose false, c⟩ =
          (.ok [], ⟨p.session.withVerbose false, c⟩) := by
        simp [comment, outcome_bind, Session.withVerbose, Session.withOptions]
      rw [hplain]
      simp only [comment, outcome_bind, outcome_get]
      split <;> exact ⟨.refl p.session, .ok ⟨rfl, fun _ => rfl⟩, rfl⟩

theorem echoes_clause (line : Line) (clause : Clause) : Echoes fit (Code.Matches fit)
    (inScope line clause.step clause.isConst) (inScope line clause.step clause.isConst) where
  run r p commented hp := by
    have := clause.sentence.blind
    refine ⟨(traced_clause (K := fun _ => True) trivial line).leads r p, ?_⟩
    have hblind := Lower.Blind.options (m := Lower.whole clause.step) (frame r line clause.isConst)
      (.start p.session) { p.session.options with verbose := false }
    rw [outcome_inScope, outcome_inScope]
    change Alike _ _ (outcome _ _ ((Scope.start p.session).withOptions _)).1 ∧
      Progress.mk (outcome _ _ ((Scope.start p.session).withOptions _)).2.session commented = _
    rw [hblind]
    refine ⟨?_, by rw [Session.withVerbose, Lower.Blind.kept]; rfl⟩
    rcases h : outcome (Lower.whole clause.step) (frame r line clause.isConst) (.start p.session) with ⟨e | code, t⟩
    · exact .error e
    · refine .ok ⟨rfl, fun hfit => List.filter_eq_self.mpr fun instr hinstr => ?_⟩
      simp [(Clause.done (hp hfit).fair h).silent instr hinstr]

abbrev Commentable (fit : Prop) (m : Emit Code) : Prop :=
  Echoes fit (Code.Matches fit) m m

instance (line? : Option Line) (m : Emit Code) [Commentable fit m] :
    Commentable fit (commented line? m) := by
  unfold commented
  infer_instance

instance (e : Expr) : Commentable fit (expression e) :=
  echoes_clause e.line (.effect e.asStatement)

instance (e : Option Expr) : Commentable fit (optionalExpression e) := by
  cases e <;> (unfold optionalExpression; infer_instance)

instance (e : Expr) : Commentable fit (constSentence e) :=
  echoes_clause e.line (.const e)

instance (e : Expr) (b : Lower.Branch) : Commentable fit (condition e b) :=
  echoes_clause e.line (.condition e b)

instance (e : Option Expr) (b : Lower.Branch) : Commentable fit (optionalCondition e b) := by
  cases e <;> (unfold optionalCondition; infer_instance)

instance (value : Option Expr) (line : Line) : Commentable fit (returnStatement value line) := by
  have (e : Expr) : Commentable fit (inScope line (Lower.returnValue e)) :=
    echoes_clause line (.value e)
  unfold returnStatement
  refine echoes_bind (R := Eq) fun r _ hr => ?_
  obtain rfl := hr
  split <;> infer_instance

instance (loop : Option String) (label : LoopLabels → String) (line : Line) (cause : Cause) :
    Commentable fit (jumpInLoop loop label line cause) := by
  unfold jumpInLoop
  split <;> infer_instance

instance (target : String) (line : Line) : Commentable fit (goto target line) := by
  unfold goto
  infer_instance

theorem commentable_ifElse (e : Expr) (body : Emit Code) {otherwise : Option (Emit Code)}
    [Commentable fit body] (h : ∀ other ∈ otherwise, Commentable fit other) :
    Commentable fit (ifElse e body otherwise) := by
  cases otherwise with
  | none => unfold ifElse; infer_instance
  | some other =>
    have := h other rfl
    unfold ifElse
    infer_instance

section Loops

variable (e : Expr) (body : String → Emit Code) [∀ id, Commentable fit (body id)]

instance : Commentable fit (whileLoop e body) := by
  unfold whileLoop
  infer_instance

instance : Commentable fit (doLoop e body) := by
  unfold doLoop
  infer_instance

instance (init test step : Option Expr) : Commentable fit (forLoop init test step body) := by
  unfold forLoop
  infer_instance

end Loops

end Emit

namespace Stmt

open Emit

variable {fit : Prop}

mutual

theorem commentable_emit (loop : Option String) : (stmt : Stmt) → Commentable fit (stmt.emit loop)
  | expression _ | const _ | breakLoop _ | continueLoop _ | goto _ _ | label _ _ | ret _ _
  | exit _ | halt _ | declaration _ | structDefinition _ _ _ => by unfold emit; infer_instance
  | ifElse e thenBranch elseBranch line => by
    have := commentable_emitBlock loop thenBranch
    have := commentable_ifElse e (emitBlock loop thenBranch) (commentable_emitElse loop elseBranch)
    unfold emit
    infer_instance
  | whileLoop _ body _ | doLoop body _ _ | forLoop _ _ _ body _ => by
    have (id : String) := commentable_emitBlock (some id) body
    unfold emit
    infer_instance
  | block body => by
    have := commentable_emitBlock loop body
    unfold emit
    infer_instance

theorem commentable_emitBlock (loop : Option String) :
    (body : List Stmt) → Commentable fit (emitBlock loop body)
  | [] => by unfold emitBlock; infer_instance
  | stmt :: rest => by
    have := stmt.commentable_emit loop
    have := commentable_emitBlock loop rest
    unfold emitBlock
    infer_instance

theorem commentable_emitElse (loop : Option String) : (body : Option (List Stmt)) →
    ∀ other ∈ emitElse loop body, Commentable fit other
  | none => by simp [emitElse]
  | some body => by
    have := commentable_emitBlock loop body
    simpa [emitElse] using this

end

end Stmt

/-- A unit is emitted from a session, and from the same session with comments turned off. Both runs fail
alike or succeed, and the sessions that they lead to differ in nothing else either. But for comments the
code is the same, and in a session of a compilation the plain code has none. -/
theorem Session.emitUnit_comments (function : Option Function) (sourceLines : List String)
    (body : List Stmt) (s : Session) :
    ∃ verbose plain : Except Failure Code × Session,
      verbose = result (emitUnit function sourceLines body) s ∧
      plain = result (emitUnit function sourceLines body) (s.withVerbose false) ∧
      plain.2 = verbose.2.withVerbose false ∧
      Alike (fun code code' => code.spoken = code'.spoken) verbose.1 plain.1 ∧
      ∀ {options : Options} {defined : List (Place × Definition)}, Reached options defined s →
        plain.1 = verbose.1.map Code.spoken := by
  refine ⟨_, _, rfl, rfl, ?_⟩
  unfold emitUnit
  split
  · next e _ => exact ⟨rfl, .error e, fun _ => rfl⟩
  rw [result_runEmit, result_runEmit]
  have hecho : Emit.Commentable s.Fit (Stmt.emitBlock none body) := Stmt.commentable_emitBlock none body
  obtain ⟨-, halike, hsame⟩ := hecho.run _ { session := s } none id
  refine ⟨congrArg Progress.session hsame, ?_⟩
  generalize (outcome _ _ _).1 = verbose at halike ⊢
  generalize (outcome _ _ _).1 = plain at halike ⊢
  cases halike with
  | error e => exact ⟨.error e, fun _ => rfl⟩
  | ok h => exact ⟨.ok h.same, fun hs => by rw [← h.silent hs.fit, ← h.same]; rfl⟩

/-- `again: goto again;` on two lines. -/
def restlessUnit : List Stmt :=
  [.label "again" 1, .goto "again" 2]

/-- Each line has its comment in the verbose code, and the plain code is left without them. -/
theorem restlessUnit_comments : ∃ s, Session.start { verbose := true } = .ok s ∧
    (result (Session.emitUnit none ["again:", "goto again;"] restlessUnit) s).1.toOption =
      some [.comment "line 1 again:", .label "again", .comment "line 2 goto again;", .jump "again"] ∧
    (result (Session.emitUnit none ["again:", "goto again;"] restlessUnit) (s.withVerbose false)).1 =
      .ok [.label "again", .jump "again"] := by
  have hstart : ((Session.start { verbose := true }).toOption.any fun s =>
      (result (Session.emitUnit none ["again:", "goto again;"] restlessUnit) s).1.toOption =
        some [.comment "line 1 again:", .label "again", .comment "line 2 goto again;", .jump "again"]) =
      true := by
    decide +kernel
  obtain ⟨s, hs, hverbose⟩ := (Option.any_eq_true _ _).mp hstart
  have hs := eq_ok_of_toOption hs
  have hverbose := of_decide_eq_true hverbose
  refine ⟨s, hs, hverbose, ?_⟩
  obtain ⟨_, _, rfl, rfl, -, -, hplain⟩ :=
    Session.emitUnit_comments none ["again:", "goto again;"] restlessUnit s
  rw [hplain (.start hs), eq_ok_of_toOption hverbose]
  rfl

end Flatword
