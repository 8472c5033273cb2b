import Flatword.Proofs.Condition
import Flatword.Proofs.Enclosed
import Flatword.Proofs.Footing
import Flatword.Proofs.Jumps
import Flatword.Proofs.Pointer

/-!
# Steps behind a guard

In `l && r` and `l || r` the right operand is reached only where the left one leaves the result open, and so
is a step in it before its value is taken. A step after the value is left for the end of the statement, and is
taken there in any case.
-/

namespace Flatword

variable {E : Instr → Prop} {code : Code} {name : String}

/-! ## Words that code keeps -/

namespace Machine

variable {m : Machine} {μ μ' : Memory} {p : Nat} {name : String} {instr : Instr}

/-- An instruction of code that leaves the word at an address alone, unless by indirection. -/
structure Keeps (m : Machine) (p : Nat) (instr : Instr) : Prop where
  written : ∀ name ∈ instr.written?, m.place name ≠ some p
  called : ∀ callee ∈ instr.callee?, ∀ s, (m.callee callee s).memory p = s.memory p

theorem write_keeps {w : Word} (hname : m.place name ≠ some p) (h : m.write μ name w = some μ') :
    μ' p = μ p := by
  obtain ⟨a, ha, rfl⟩ := Option.map_eq_some_iff.mp h
  refine Function.update_of_ne (fun hp => hname ?_) ..
  rw [hp, ha]

theorem change_keeps {g : Word → Word} (hname : m.place name ≠ some p) (h : m.change μ name g = some μ') :
    μ' p = μ p := by
  obtain ⟨w, -, h⟩ := Option.bind_eq_some_iff.mp h
  exact write_keeps hname h

theorem guard_of_pointed {base : String} {index : Option String} {a : Nat}
    (h : m.pointed μ base index = some a) : m.guard a = true := by
  have hlast {word : Option Word} {w : Word}
      (h : (word.bind fun i => if m.guard (w + i).toNat then some (w + i).toNat else none) = some a) :
      m.guard a = true := by
    obtain ⟨i, -, h⟩ := Option.bind_eq_some_iff.mp h
    split at h
    · next hguard => rwa [Option.some.inj h] at hguard
    · simp at h
  obtain ⟨w, -, h⟩ := Option.bind_eq_some_iff.mp h
  cases index with
  | none | some => exact hlast h

theorem assign_keeps {dest : Dest} {w : Word} (hp : m.guard p = false)
    (hdest : ∀ name, dest = .var name → m.place name ≠ some p) (h : m.assign μ dest w = some μ') :
    μ' p = μ p := by
  cases dest with
  | var name => exact write_keeps (hdest name rfl) h
  | indirect base index =>
    obtain ⟨a, ha, rfl⟩ := Option.map_eq_some_iff.mp h
    refine Function.update_of_ne (fun hpa => ?_) ..
    have hguard := guard_of_pointed ha
    simp [← hpa, hp] at hguard

theorem effect_keeps (hp : m.guard p = false) (hinstr : m.Keeps p instr)
    (h : m.effect μ instr = some μ') : μ' p = μ p := by
  cases instr with
  | set dest src =>
    obtain ⟨w, -, h⟩ := Option.bind_eq_some_iff.mp h
    exact assign_keeps hp (fun name hdest => hinstr.written name (by simp [hdest, Instr.written?])) h
  | clear name => exact write_keeps (hinstr.written name (by simp [Instr.written?])) h
  | inc name | dec name | not name => exact change_keeps (hinstr.written name (by simp [Instr.written?])) h
  | arith op dest src =>
    obtain ⟨w, -, h⟩ := Option.bind_eq_some_iff.mp h
    exact change_keeps (hinstr.written dest (by simp [Instr.written?])) h
  | _ =>
    obtain rfl : μ = μ' := by simpa [effect] using h
    rfl

end Machine

/-- After an action a word is this, unless the machine has stopped. -/
def Action.Shows (p : Nat) (w : Word) : Action → Prop
  | next s | jump _ s | done s => s.memory p = w
  | trap => True

/-- Where a pass stands a word is this, unless the machine has stopped. -/
def Mode.Shows (p : Nat) (w : Word) : Mode → Prop
  | falling s | seeking _ s | done s => s.memory p = w
  | trap => True

namespace Machine

variable {m : Machine} {p : Nat} {w : Word} {code : Code} {instr : Instr} {s : Store}

theorem branch_shows {test : Option Bool} {target : String} (h : s.memory p = w) :
    (branch test target s).Shows p w := by
  rcases test with _ | _ | _
  · trivial
  · exact h
  · exact h

theorem act_shows (hp : m.guard p = false) (hinstr : m.Keeps p instr) (h : s.memory p = w) :
    (m.act s instr).Shows p w := by
  cases instr with
  | push name =>
    rw [act]
    cases m.read s.memory name with
    | none => trivial
    | some => exact h
  | pop name =>
    rw [act]
    rcases s.stack with _ | ⟨top, stack⟩
    · trivial
    · dsimp only
      cases hwrite : m.write s.memory name top with
      | none => trivial
      | some μ => exact (write_keeps (hinstr.written name (by simp [Instr.written?])) hwrite).trans h
  | call target => exact (hinstr.called target (by simp [Instr.callee?]) s).trans h
  | jump | ret | finish | stop => exact h
  | ifZero | ifNonzero | ifCompare => exact branch_shows h
  | _ =>
    simp only [act]
    split
    · next μ hμ => exact (effect_keeps hp hinstr hμ).trans h
    · trivial

theorem pass_shows (hp : m.guard p = false) (hinstr : m.Keeps p instr) {mode : Mode}
    (h : mode.Shows p w) : (m.pass mode instr).Shows p w := by
  cases mode with
  | falling s =>
    have hact := act_shows hp hinstr h
    rw [pass]
    cases hs : m.act s instr <;> rw [hs] at hact <;> exact hact
  | seeking label s =>
    rw [pass]
    split
    · exact h
    · exact h
  | done s => exact h
  | trap => trivial

theorem flow_shows (hp : m.guard p = false) (hcode : ∀ instr ∈ code, m.Keeps p instr) {mode : Mode}
    (h : mode.Shows p w) : (m.flow code mode).Shows p w := by
  induction code generalizing mode with
  | nil => exact h
  | cons instr code ih =>
    obtain ⟨hinstr, hcode⟩ := List.forall_mem_cons.mp hcode
    exact ih hcode (pass_shows hp hinstr h)

end Machine

/-! ## Runs of code whose jumps go ahead -/

theorem Code.Forward.ahead {front back : Code} {instr goal : Instr}
    (h : Code.Forward E (front ++ instr :: back)) (hgoal : instr.goal? = some goal) :
    goal ∈ back ∨ E goal := by
  induction front with
  | nil => exact h.1 goal hgoal
  | cons _ front ih => exact ih h.2

namespace Machine

variable {m : Machine} {code : Code} {instr : Instr} {s u : Store} {label : String}

theorem goal_of_jump (h : m.act s instr = .jump label u) : instr.goal? = some (.label label) := by
  have hbranch {test : Option Bool} {target : String} (h : branch test target s = .jump label u) :
      target = label := by
    rcases test with _ | _ | _
    · simp [branch] at h
    · simp [branch] at h
    · simp only [branch, Action.jump.injEq] at h
      exact h.1
  cases instr with
  | jump target =>
    simp only [act, Action.jump.injEq] at h
    rw [h.1, Instr.goal?]
  | ifZero | ifNonzero | ifCompare => rw [← hbranch h, Instr.goal?]
  | push | pop | call | ret | finish | stop =>
    simp only [act] at h
    repeat' split at h
    all_goals simp at h
  | _ =>
    simp only [act] at h
    split at h <;> simp at h

theorem goto_ahead {front back : Code} (hlabels : (front ++ instr :: back).labels.Nodup)
    (hmem : .label label ∈ back) : ∃ mid rest : Code, back = mid ++ .label label :: rest ∧
      label ∉ mid.labels ∧
      Code.goto (front ++ instr :: back) label u = .at (front.length + (mid.length + 1)) u := by
  obtain ⟨mid, rest, rfl⟩ := List.append_of_mem hmem
  have hcode : front ++ instr :: (mid ++ .label label :: rest) =
      (front ++ instr :: mid) ++ .label label :: rest := by simp
  rw [hcode] at hlabels ⊢
  refine ⟨mid, rest, rfl, fun hmid => ?_, by simpa using goto_middle hlabels⟩
  rw [Code.labels_append, Code.labels_label, List.nodup_append] at hlabels
  refine hlabels.2.2 label ?_ label (by simp) rfl
  rw [mem_labels] at hmid ⊢
  simp [hmid]

/-- Where the jumps go ahead, a run that has come to an instruction has passed all before it once, and a
jump leads to labels only. -/
theorem flow_of_steps (hforward : code.Forward fun _ => False) (hlabels : code.labels.Nodup) {x : Run}
    (h : m.Steps code (.at 0 s) x) {pc : Nat} (hx : x = .at pc u) :
    m.flow (code.take pc) (.falling s) = .falling u ∨
      ∃ label, m.flow (code.take pc) (.falling s) = .seeking label u ∧ code[pc]? = some (.label label) := by
  induction h generalizing pc u with
  | refl =>
    obtain ⟨rfl, rfl⟩ := Run.at.inj hx
    exact .inl rfl
  | @tail y z _ hstep ih =>
    subst hx
    cases y with
    | «at» pc₁ u₁ =>
      obtain ⟨instr, hinstr, hact⟩ := Option.map_eq_some_iff.mp hstep
      have htake : code.take (pc₁ + 1) = code.take pc₁ ++ [instr] := by
        rw [List.take_add_one, hinstr, Option.toList_some]
      rcases ih rfl with hfalls | ⟨label, hseeks, hlabel⟩
      · cases hnext : m.act u₁ instr with
        | next u₂ =>
          rw [hnext] at hact
          obtain ⟨rfl, rfl⟩ := Run.at.inj hact
          refine .inl ?_
          rw [htake, flow_append, hfalls, flow_cons, flow_nil, pass, hnext]
        | jump label u₂ =>
          rw [hnext] at hact
          have hcode : code = code.take pc₁ ++ instr :: code.drop (pc₁ + 1) := by
            rw [← List.singleton_append, ← List.append_assoc, ← htake, List.take_append_drop]
          have hlength : (code.take pc₁).length = pc₁ := by
            rw [List.length_take_of_le (List.getElem?_eq_some_iff.mp hinstr).1.le]
          generalize code.take pc₁ = front at hcode hfalls hlength
          generalize code.drop (pc₁ + 1) = back at hcode
          subst hcode hlength
          have hback := (hforward.ahead (goal_of_jump hnext)).resolve_right id
          obtain ⟨mid, rest, rfl, hmid, hgoto⟩ := goto_ahead (u := u₂) hlabels hback
          obtain ⟨rfl, rfl⟩ := Run.at.inj (hgoto.symm.trans hact)
          refine .inr ⟨label, ?_, by simp⟩
          have htake : (front ++ instr :: (mid ++ .label label :: rest)).take
              (front.length + (mid.length + 1)) = front ++ instr :: mid := by
            rw [List.take_length_add_append, List.take_succ_cons, List.take_left]
          rw [htake, flow_append, hfalls, flow_cons, pass, hnext]
          exact flow_seeking hmid
        | done u₂ => simp [hnext] at hact
        | trap => simp [hnext] at hact
      · obtain rfl : instr = .label label := Option.some.inj (hinstr.symm.trans hlabel)
        obtain ⟨rfl, rfl⟩ := Run.at.inj hact
        refine .inl ?_
        rw [htake, flow_append, hseeks, flow_cons, flow_nil, pass_seeking_label]
    | left | done | trap => simp [step] at hstep

theorem steps_iff_flow {front back : Code} (hforward : Code.Forward (fun _ => False) (front ++ back))
    (hlabels : (front ++ back).labels.Nodup) (hback : ∀ label, back.head? ≠ some (.label label)) :
    m.Steps (front ++ back) (.at 0 s) (.at front.length u) ↔ m.flow front (.falling s) = .falling u := by
  constructor
  · intro h
    have hflow := flow_of_steps hforward hlabels h rfl
    rw [List.take_left] at hflow
    refine hflow.resolve_right ?_
    rintro ⟨label, -, hlabel⟩
    rw [List.getElem?_append_right (Nat.le_refl _), Nat.sub_self, ← List.head?_eq_getElem?] at hlabel
    exact hback label hlabel
  · intro h
    have hsteps := steps_flow (m := m) [] front back (.falling s) hlabels
    rw [h] at hsteps
    simpa [Mode.run] using hsteps

theorem flow_of_steps_end (hforward : code.Forward fun _ => False) (hlabels : code.labels.Nodup)
    (h : m.Steps code (.at 0 s) (.at code.length u)) : m.flow code (.falling s) = .falling u := by
  have hend := flow_of_steps hforward hlabels h rfl
  rw [List.take_length] at hend
  refine hend.resolve_right ?_
  rintro ⟨label, -, hlabel⟩
  simp at hlabel

end Machine

/-! ## Passes over a guarded step -/

namespace Machine

variable {m : Machine} {p : Nat} {code front back : Code} {s s' u : Store} {label : String}

theorem goal_of_flow {mode : Mode} (h : m.flow code mode = .seeking label u) :
    (∃ u', mode = .seeking label u') ∨ ∃ instr ∈ code, instr.goal? = some (.label label) := by
  induction code generalizing mode with
  | nil => exact .inl ⟨u, h⟩
  | cons instr code ih =>
    rcases ih h with ⟨u', hpass⟩ | ⟨x, hx, hgoal⟩
    · cases mode with
      | falling s =>
        rw [pass] at hpass
        split at hpass <;> cases hpass
        next hact => exact .inr ⟨instr, by simp, goal_of_jump hact⟩
      | seeking label' s =>
        rw [pass] at hpass
        split at hpass
        · cases hpass
        · exact .inl ⟨u', hpass⟩
      | done | trap => cases hpass
    · exact .inr ⟨x, by simp [hx], hgoal⟩

theorem flow_labels (marks : List String) : m.flow (marks.map .label) (.falling s) = .falling s := by
  induction marks with
  | nil => rfl
  | cons mark marks ih => exact ih

theorem flow_past (front : Code) {part : Code} (back : Code) (hlabels : (front ++ part ++ back).labels.Nodup)
    (hlabel : .label label ∈ front ∨ .label label ∈ back) :
    m.flow part (.seeking label s) = .seeking label s := by
  refine flow_seeking fun hpart => ?_
  rw [Code.labels_append, Code.labels_append, List.nodup_append, List.nodup_append] at hlabels
  obtain ⟨⟨-, -, hfront⟩, -, hback⟩ := hlabels
  rcases hlabel with hmem | hmem
  · exact hfront label (mem_labels.mpr hmem) label hpart rfl
  · exact hback label (List.mem_append_right _ hpart) label (mem_labels.mpr hmem) rfl

theorem flow_guarded {test step : Instr} {marks : List String} {target : String} {hit : Memory → Bool}
    {change : Word → Word} (hp : m.guard p = false)
    (hlabels : (front ++ test :: (marks.map .label ++ step :: back)).labels.Nodup)
    (hfront : ∀ instr ∈ front, m.Keeps p instr) (hback : ∀ instr ∈ back, m.Keeps p instr)
    (hgoal : ∀ instr ∈ front ++ [test], ∀ goal ∈ instr.goal?, goal ∈ front ∨ goal ∈ back)
    (htest : ∀ u, m.pass (.falling u) test = if hit u.memory then .falling u else .seeking target u)
    (htarget : test.goal? = some (.label target))
    (hstep : ∀ u, ∃ u', m.pass (.falling u) step = .falling u' ∧ u'.memory p = change (u.memory p))
    (h : m.flow (front ++ test :: (marks.map .label ++ step :: back)) (.falling s) = .falling s') :
    (∃ u, m.flow front (.falling s) = .falling u ∧ hit u.memory = true ∧
        s'.memory p = change (s.memory p)) ∨
      (∀ u, m.flow front (.falling s) = .falling u → hit u.memory = false) ∧
        s'.memory p = s.memory p := by
  have hfirst : (m.flow front (.falling s)).Shows p (s.memory p) := flow_shows hp hfront rfl
  have hlast {mode : Mode} {w : Word} (h : m.flow back mode = .falling s') (hmode : mode.Shows p w) :
      s'.memory p = w := by
    have hshows := flow_shows hp hback hmode
    rwa [h] at hshows
  rw [flow_append] at h
  cases hmode : m.flow front (.falling s) with
  | falling u =>
    rw [hmode] at hfirst h
    have hfirst : u.memory p = s.memory p := hfirst
    rw [flow_cons, flow_append, flow_cons, htest] at h
    cases hhit : hit u.memory with
    | true =>
      obtain ⟨u', hpass, hchange⟩ := hstep u
      rw [hhit, if_pos rfl, flow_labels, hpass] at h
      refine .inl ⟨u, rfl, hhit, ?_⟩
      rw [hlast h hchange, hfirst]
    | false =>
      have hlabel := hgoal test (by simp) _ htarget
      have hpast : m.flow (marks.map .label ++ [step]) (.seeking target u) = .seeking target u :=
        flow_past (front ++ [test]) back (by simpa using hlabels)
          (hlabel.imp_left (List.mem_append_left _))
      rw [flow_append, flow_cons, flow_nil] at hpast
      rw [hhit, if_neg Bool.false_ne_true, hpast] at h
      refine .inr ⟨fun _ heq => ?_, hlast h hfirst⟩
      rw [← Mode.falling.inj heq]
      exact hhit
  | seeking label u =>
    rw [hmode] at hfirst h
    obtain ⟨_, hseeking⟩ | ⟨instr, hinstr, hinstrGoal⟩ := goal_of_flow hmode
    · cases hseeking
    have hlabel := hgoal instr (by simp [hinstr]) _ hinstrGoal
    have hpast : m.flow (test :: (marks.map .label ++ [step])) (.seeking label u) = .seeking label u :=
      flow_past front back (by simpa using hlabels) hlabel
    rw [flow_cons, flow_append, flow_cons, flow_nil] at hpast
    rw [flow_cons, flow_append, flow_cons, hpast] at h
    exact .inr ⟨by simp, hlast h hfirst⟩
  | done | trap => simp [hmode] at h

end Machine

/-! ## The test of a guard -/

/-- A plain variable, or a comparison of plain variables. -/
inductive Expr.IsGuard (vars : String → Option Nat) : Expr → Prop
  | word {name line a} (h : vars name = some a) : IsGuard vars (.var name line)
  | compare {op left right line line' line'' a a'}
      (hl : vars left = some a) (hr : vars right = some a') :
      IsGuard vars (.compare op (.var left line) (.var right line') line'')

namespace Lower

variable {g : Ground} {f : Frame} {s t : Scope} {name : String} {x : Slot} {v : Lowered} {b : Branch}
  {code : Code}

theorem lowerVar_gives (h : Gives (lowerLookup name []) f s v t) :
    ∃ x, Gives (lookup name) f s x t ∧ v = ⟨x, []⟩ := by
  simp only [lowerLookup, List.isEmpty_nil, if_true, gives_bind, gives_read, gives_pure] at h
  obtain ⟨_, _, ⟨rfl, rfl⟩, x, _, hx, rfl, rfl⟩ := h
  exact ⟨x, hx, rfl⟩

theorem lookup_slot {a : Nat} (ha : s.ground.plain? f.function name = some a)
    (h : Gives (lookup name) f s x t) :
    x.isPlain = true ∧ x.address = some a ∧ s.Knows x ∧ s.Notes t := by
  obtain ⟨hknows, hnotes⟩ := lookup_notes h
  have hunmarked : x.unmarked.isPlain = x.isPlain ∧ x.unmarked.address = x.address := ⟨rfl, rfl⟩
  simp only [Ground.plain?, lookup_find? h, Option.bind_some, hunmarked] at ha
  split at ha
  · next hplain => exact ⟨hplain, ha, hknows, hnotes⟩
  · simp at ha

theorem flatten_plain {flat : Flat} (hx : x.isPlain = true) (h : Gives (flatten x) f s flat t) :
    flat = { slot := x } ∧ t = s := by
  obtain ⟨_, _, hget, h⟩ := gives_bind.mp h
  obtain ⟨rfl, rfl⟩ := gives_get.mp hget
  rw [Slot.isPlain, Bool.and_eq_true, Option.isNone_iff_eq_none] at hx
  obtain ⟨hk, ho⟩ := hx
  cases hkind : x.kind <;> simp [hkind, Kind.isRegular] at hk <;>
    simp only [flattenWith, hkind, ho, gives_pure] at h <;> exact ⟨h.1.symm, h.2.symm⟩

theorem branchValue_plain {value : Lower Lowered}
    (hvalue : ∀ {v u}, Gives value f s v u → v.slot.isPlain = true)
    (h : Gives (branchValue value b) f s code t) : ∃ v u pool, Gives value f s v u ∧
      t = { u with pool } ∧ code = v.code ++ [if b.reversed then .ifNonzero v.slot.asmName b.target
        else .ifZero v.slot.asmName b.target] := by
  simp only [branchValue, gives_bind, gives_pure] at h
  obtain ⟨v, u, hv, flat, u₁, hflat, _, u₂, hrelease, _, _, hoperand, rfl, rfl⟩ := h
  obtain ⟨rfl, rfl⟩ := flatten_plain (hvalue hv) hflat
  obtain ⟨-, rfl⟩ := gives_pure.mp hrelease
  obtain ⟨pool, rfl⟩ := releaseOperand_pool hoperand
  exact ⟨v, _, pool, hv, rfl, by simp⟩

theorem branchCompare_plain {op : Comparison} {left right : Lower Lowered}
    (hleft : ∀ {v u}, Gives left f s v u → v.slot.isPlain = true)
    (hright : ∀ {v u v' u'}, Gives left f s v u → Gives right f u v' u' → v'.slot.isPlain = true)
    (h : Gives (branchCompare op left right b) f s code t) : ∃ v u v' u',
      Gives left f s v u ∧ Gives right f u v' u' ∧ code = v.code ++ v'.code ++
        [.ifCompare (if b.reversed then op else op.negate) v.slot.asmName v'.slot.asmName b.target] := by
  simp only [branchCompare, gives_bind] at h
  obtain ⟨v, u, hv, v', u', hv', flat, u₁, hflat, h⟩ := h
  obtain ⟨rfl, rfl⟩ := flatten_plain (hleft hv) hflat
  have hplain := hright hv hv'
  have hconstant : v'.slot.isValue 0 = false := by
    have hk : v'.slot.kind ≠ .constant := Slot.kind_ne_of_isPlain hplain
    simp [Slot.isValue, Slot.isConstant, hk]
  simp only [hconstant, Bool.false_eq_true, and_false, if_false, gives_bind, gives_pure] at h
  obtain ⟨flat', u₂, hflat', _, _, -, _, _, -, _, _, -, _, _, -, rfl, rfl⟩ := h
  obtain ⟨rfl, rfl⟩ := flatten_plain hplain hflat'
  exact ⟨v, u, v', _, hv, hv', by simp⟩

end Lower

namespace Expr.IsGuard

variable {vars : String → Option Nat}

open Lower

variable {g : Ground} {function : Option String} {l : Expr}

theorem targets_eq (hl : l.IsGuard vars) : l.targets = [] := by
  cases hl <;> rfl

theorem callees_eq (hl : l.IsGuard vars) : l.callees = [] := by
  cases hl <;> rfl

theorem test (hl : l.IsGuard (g.plain? function)) {f : Frame} {s t : Scope} {b : Branch} {code : Code}
    (hf : f.function = function) (hs : s.ground = g) (h : Gives (l.lowering.branch b) f s code t) :
    ∃ test, code = [test] ∧ test.written? = none ∧ test.goal? = some (.label b.target) ∧
      ∀ m : Machine, (∀ y ∈ g.slots, y.kind ≠ .struct → m.place y.asmName = y.address) → ∀ u,
        m.pass (.falling u) test = if l.holds m.alu (g.plain? function) u.memory = b.reversed
          then .seeking b.target u else .falling u := by
  subst hf hs
  have hslot {name : String} {a : Nat} {s' t : Scope} {v : Lowered} (hs' : s'.ground = s.ground)
      (ha : s.ground.plain? f.function name = some a) (h : Gives (lowerLookup name []) f s' v t) :
      v.code = [] ∧ v.slot.isPlain = true ∧ t.ground = s.ground ∧ ∀ m : Machine,
        (∀ y ∈ s.ground.slots, y.kind ≠ .struct → m.place y.asmName = y.address) →
          m.place v.slot.asmName = some a := by
    obtain ⟨x, hx, rfl⟩ := lowerVar_gives h
    obtain ⟨hplain, haddress, hknows, hnotes⟩ := lookup_slot (hs' ▸ ha) hx
    refine ⟨rfl, hplain, hnotes.ground.trans hs', fun m hm => ?_⟩
    have hk : x.kind ≠ .struct := Slot.kind_ne_of_isPlain hplain
    have hplace : m.place x.asmName = x.address := hm x.unmarked (hs' ▸ hknows) hk
    rw [hplace, haddress]
  cases hl with
  | @word name line a ha =>
    obtain ⟨v, u, pool, hv, -, rfl⟩ := branchValue_plain (fun hv => (hslot rfl ha hv).2.1) h
    obtain ⟨hcode, -, -, hplace⟩ := hslot rfl ha hv
    rw [hcode, List.nil_append]
    refine ⟨_, rfl, by split <;> rfl, by split <;> rfl, fun m hm st => ?_⟩
    have hholds : (Expr.var name line).holds m.alu (s.ground.plain? f.function) st.memory =
        (st.memory a != 0) := by
      simp [Expr.var, holds, eval, ha]
    have hinstr : (if b.reversed then Instr.ifNonzero v.slot.asmName b.target
        else .ifZero v.slot.asmName b.target) =
          if !b.reversed then .ifZero v.slot.asmName b.target else .ifNonzero v.slot.asmName b.target := by
      cases b.reversed <;> rfl
    rw [hholds, hinstr, pass_zeroTest (hplace m hm)]
    cases b.reversed <;> cases hw : st.memory a == 0 <;> simp [bne, hw]
  | @compare op left right line line' line'' a a' hl hr =>
    obtain ⟨v, u, v', u', hv, hv', rfl⟩ := branchCompare_plain (fun hv => (hslot rfl hl hv).2.1)
      (fun hv hv' => (hslot (hslot rfl hl hv).2.2.1 hr hv').2.1) h
    obtain ⟨hcode, -, hu, hplace⟩ := hslot rfl hl hv
    obtain ⟨hcode', -, -, hplace'⟩ := hslot hu hr hv'
    rw [hcode, hcode', List.append_nil, List.nil_append]
    refine ⟨_, rfl, rfl, rfl, fun m hm st => ?_⟩
    have hholds : (Expr.compare op (.var left line) (.var right line') line'').holds m.alu
        (s.ground.plain? f.function) st.memory = m.alu.holds op (st.memory a) (st.memory a') := by
      simp [Expr.var, holds, eval, hl, hr]
    rw [hholds, ← Branch.leave_test]
    exact pass_ifCompare (hplace m hm) (hplace' m hm) st.memory st.stack

end Expr.IsGuard

/-! ## Where the step is found -/

/-- A test that decides a guard: its code in some scope, as the left operand of a connective. -/
def Expr.TestedBy (g : Ground) (function : Option String) (op : LogicalOp) (l : Expr) (test : Instr) : Prop :=
  ∃ (f : Frame) (b : Lower.Branch) (s t : Scope), f.function = function ∧ s.ground = g ∧
    b.reversed = decide (op = .or) ∧ Gives (l.lowering.branch b) f s [test] t

namespace Lower

variable {code : Code} {w : Watch} {f : Frame} {s t : Scope} {name : String} {v : Lowered}
  {up before : Bool}

theorem lowerStep_word (hx : s.ground.find? f.function name = some w.word) (hplain : w.word.isPlain = true)
    (h : Gives (lowerStep up before (lowerTarget true (lowerLookup name []))) f s v t) :
    v.slot.isPlain = true ∧ v.slot.asmName = w.name ∧ ∃ u, s.Notes u ∧
      (before = true ∧ t = u ∧ v.code = [stepInstr up w.name] ∨
        before = false ∧ t = { u with post := u.post ++ [stepInstr up w.name] } ∧ v.code = []) := by
  simp only [lowerStep, gives_bind] at h
  obtain ⟨place, u, hplace, h⟩ := h
  obtain ⟨x, hlookup, rfl⟩ := lowerVar_gives (lowerTarget_gives hplace).2.1
  have hfound := lookup_find? hlookup
  have hword : x.unmarked = w.word := Option.some.inj (hfound.symm.trans hx)
  have hsame : x.unmarked.asmName = w.word.asmName ∧ x.unmarked.isPlain = true := by
    rw [hword]
    exact ⟨rfl, hplain⟩
  have hname : x.asmName = w.name := hsame.1
  have hxplain : x.isPlain = true := hsame.2
  have hnotes := (lookup_notes hlookup).2
  dsimp only at h
  rw [if_pos hxplain, hname] at h
  cases before with
  | true =>
    obtain ⟨rfl, rfl⟩ := gives_pure.mp h
    exact ⟨hxplain, hname, u, hnotes, .inl ⟨rfl, rfl, rfl⟩⟩
  | false =>
    simp only [Bool.false_eq_true, if_false, gives_bind, gives_pure, pushPost, gives_modify] at h
    obtain ⟨_, _, rfl, rfl, rfl⟩ := h
    exact ⟨hxplain, hname, u, hnotes, .inr ⟨rfl, rfl, rfl⟩⟩

theorem branchStep_word (hg : w.leave.Fair) (hx : w.ground.find? w.function name = some w.word)
    (hplain : w.word.isPlain = true) {line line' : Line} {b : Branch} (hf : f.function = w.function)
    (hs : w.leave.Tracks s)
    (h : Gives ((Expr.step up before (.var name line) line').lowering.branch b) f s code t) :
    w.leave.Tracks t ∧ ∃ test : Instr, test.written? = none ∧
      (before = true ∧ code = [stepInstr up w.name, test] ∧ t.post = s.post ∨
        before = false ∧ code = [test] ∧ t.post = s.post ++ [stepInstr up w.name]) := by
  obtain ⟨⟨htracks, -⟩, -⟩ := ((Expr.step up before (.var name line) line').links_lowering
    (Leave.fair_all hg.toFair) Expr.passes_all).branch b s.session.jumps trivial
      (Leave.tracks_all hs.toTracks) rfl h
  have hfound : s.ground.find? f.function name = some w.word := by rw [hs.ground, hf, hx]
  have h : Gives (branchValue (lowerStep up before (lowerTarget true (lowerLookup name []))) b) f s code t := h
  obtain ⟨v, u, pool, hv, rfl, rfl⟩ := branchValue_plain (fun hv => (lowerStep_word hfound hplain hv).1) h
  obtain ⟨-, -, u', hnotes, hstep⟩ := lowerStep_word hfound hplain hv
  have hspare : ∀ target ∈ u'.reuse.target?, w.leave.Takes target ∧ w.leave.Spare target.address :=
    hnotes.reuse ▸ hs.spare
  rcases hstep with ⟨hbefore, rfl, hcode⟩ | ⟨hbefore, rfl, hcode⟩
  · refine ⟨⟨htracks, hspare⟩, _, ?_, .inl ⟨hbefore, by rw [hcode]; rfl, hnotes.post⟩⟩
    split <;> rfl
  · refine ⟨⟨htracks, hspare⟩, _, ?_, .inr ⟨hbefore, by rw [hcode]; rfl, ?_⟩⟩
    · split <;> rfl
    · change u'.post ++ _ = _
      rw [hnotes.post]

theorem hosting_guarded (hg : w.leave.Fair) (hx : w.ground.find? w.function name = some w.word)
    (hplain : w.word.isPlain = true) {op : LogicalOp} {l : Expr}
    (hl : l.IsGuard (w.ground.plain? w.function)) (line line' line'' : Line) :
    (Expr.logical op l (.step up before (.var name line) line') line'').lowering.Hosting w
      ⟨stepInstr up w.name, before, l.TestedBy w.ground w.function op⟩ := by
  refine .ofBranch hg fun b f s code t hf hs h => ?_
  obtain ⟨id, s₁, first, front, s₂, marks, back, last, hid, hfront, hback, hconnects, rfl⟩ :=
    branchLogical_gives h
  obtain ⟨hs₁, -, q₁, hq₁, hplain₁⟩ := lays_newJump (E := fun _ => False) hf hs hid
  have hidle : IdleBranch w l.lowering.branch := Expr.idle_condition hg (by
    rw [hl.targets_eq, hl.callees_eq]
    exact ⟨by simp, by simp⟩)
  obtain ⟨hs₂, -, q₂, hq₂, hplain₂⟩ := hidle.lays first hf hs₁ hfront
  obtain ⟨test, rfl, hwritten, hgoal, -⟩ := hl.test hf hs₁.ground hfront
  have htested : l.TestedBy w.ground w.function op test :=
    ⟨f, first, s₁, s₂, hf, hs₁.ground, hconnects.reversed, hfront⟩
  obtain ⟨ht, test', hwritten', hstep⟩ := branchStep_word hg hx hplain hf hs₂ hback
  refine ⟨ht, trivial, ?_⟩
  have hlast : Code.Spares (test' :: last) w.name :=
    Code.spares_cons.mpr ⟨by simp [hwritten'], hconnects.spares _⟩
  have hqueue : Code.Spares (q₁ ++ q₂) w.name := Code.spares_append.mpr ⟨hplain₁.queue, hplain₂.queue⟩
  rcases hstep with ⟨hbefore, rfl, hpost⟩ | ⟨hbefore, rfl, hpost⟩
  · refine ⟨q₁ ++ q₂, by rw [hpost, hq₂, hq₁, List.append_assoc], .standing hbefore ?_ hqueue⟩
    refine ⟨[], test, marks, test' :: last, by simp, htested, by simp [hwritten], hlast, ?_⟩
    intro instr hinstr goal hinstrGoal
    obtain rfl := List.mem_singleton.mp hinstr
    obtain rfl := Option.some.inj (hgoal.symm.trans hinstrGoal)
    exact .inr (hconnects.target.imp_left (List.mem_cons_of_mem _))
  · refine ⟨q₁ ++ q₂ ++ [stepInstr up w.name], by rw [hpost, hq₂, hq₁]; simp, .waiting hbefore ?_
      ⟨q₁ ++ q₂, [], rfl, hqueue, Code.spares_nil⟩⟩
    have hcode : Code.Spares (test :: (marks.map .label ++ test' :: last)) w.name := by
      simp only [Code.spares_cons, Code.spares_append]
      exact ⟨by simp [hwritten], spares_labels marks _, Code.spares_cons.mp hlast⟩
    simpa using hcode

theorem labels_of_straight {N : String → Prop} (h : code.Straight N) : code.labels = [] := by
  refine List.filterMap_eq_nil_iff.mpr fun instr hinstr => ?_
  have hstraight := (h instr hinstr).1
  cases instr with
  | label => simp [Instr.isStraight] at hstraight
  | _ => rfl

/-- A whole statement with a guarded step in it: the step stands behind its test, or it is at the end
with nothing behind it to jump to. -/
theorem effect_splits {session : Session} {k : GuardedStep} {e : Expr}
    (hw : w.ground = (Scope.start session).ground) (he : e.lowering.Hosting w k)
    (hf : f.function = w.function) (h : Gives (whole (effect e)) f (.start session) code t) :
    k.before = true ∧ k.StandsIn w.name (fun _ => False) code ∨
      k.before = false ∧ ∃ front back : Code, code = front ++ k.step :: back ∧ front.Spares w.name ∧
        back.Spares w.name ∧ back.labels = [] := by
  simp only [whole, effect, gives_bind, gives_pure, gives_takePost] at h
  obtain ⟨_, _, ⟨_, s₁, hallow, v, s₂, hv, _, s₃, hused, _, s₄, hrelease, post, _, ⟨rfl, rfl⟩, rfl, rfl⟩, _, _, -,
    rfl, -⟩ := h
  have htracks : w.ground.Tracks (.start session) := hw ▸ Clause.tracks_start session
  have hstart : w.leave.Tracks (.start session) := ⟨htracks, by simp [Scope.start, Reuse.target?]⟩
  have hs₁ : w.leave.Tracks s₁ := (quiet_allowReuse session.jumps hf hstart rfl hallow).1
  obtain ⟨hs₂, -, queue, hqueue, hsplits⟩ := he.value hf hs₁ hv
  obtain rfl : queue = s₄.post := by
    have hpost₁ : s₁.post = [] := by rw [← gives_modify.mp hallow]; rfl
    obtain rfl := gives_checkUsed hused
    obtain ⟨pool, rfl⟩ := releaseOperand_pool hrelease
    rw [hpost₁, List.nil_append] at hqueue
    exact hqueue.symm
  cases hsplits with
  | standing hbefore hcode hspares =>
    have hwhole := hcode.enclose (F := fun _ => False) [] s₄.post Code.spares_nil hspares
      (fun _ => False.elim) (by simp)
    exact .inl ⟨hbefore, by simpa using hwhole⟩
  | waiting hbefore hcode hwaits =>
    obtain ⟨front, back, hpost, hfront, hback⟩ := hwaits
    refine .inr ⟨hbefore, v.code ++ front, back, by rw [hpost, List.append_assoc],
      Code.spares_append.mpr ⟨hcode, hfront⟩, hback, ?_⟩
    have hstraight := hs₂.post s₂ (.refl s₂)
    rw [hqueue, hpost] at hstraight
    exact labels_of_straight fun instr hinstr => hstraight instr (by simp [hinstr])

/-- A word after a step. -/
def stepped (up : Bool) (a : Word) : Word :=
  if up then a + 1 else a - 1

theorem stepped_ne (up : Bool) (a : Word) : stepped up a ≠ a := by
  cases up with
  | true => simp [stepped]
  | false =>
    intro h
    have hsum := congrArg (· + 1) h
    simp [stepped] at hsum

theorem pass_stepInstr {m : Machine} {p : Nat} (up : Bool) (hname : m.place name = some p) (u : Store) :
    ∃ u', m.pass (.falling u) (stepInstr up name) = .falling u' ∧
      u'.memory p = stepped up (u.memory p) := by
  refine ⟨⟨Function.update u.memory p (stepped up (u.memory p)), u.stack⟩, ?_, Function.update_self ..⟩
  cases up <;> simp [stepInstr, stepped, Machine.pass, Machine.act, Machine.effect, Machine.change, Machine.read,
    Machine.write, hname]

end Lower

theorem Code.labels_sublist (code : Code) : code.labels.Sublist code.labelNames := by
  induction code with
  | nil => exact .refl _
  | cons instr code ih =>
    cases instr with
    | label name => exact ih.cons_cons name
    | const instr =>
      have hrest : Code.labels (.const instr :: code) = Code.labels code := rfl
      rw [hrest, Code.labelNames, List.filterMap_cons]
      split
      · exact ih
      · exact ih.cons _
    | _ => exact ih

theorem Code.Linked.nodup_labels {j : UInt32} {n : Nat} (h : code.Linked E [] j n)
    (hn : n < UInt32.size) : code.labels.Nodup := by
  obtain ⟨made, hperm, hmade⟩ := h.labels
  have hnodup := hmade.nodup hn
  rw [Code.labels_map_label] at hnodup
  exact code.labels_sublist.nodup (hperm.nodup_iff.mpr hnodup)

/-! ## Statements -/

/-- A machine on which the word at an address has one name, and changes neither by indirection nor in a
function that the code calls. -/
structure Machine.Secludes (m : Machine) (name : String) (p : Nat) (code : Code) : Prop where
  only : ∀ other, m.place other = some p → other = name
  guard : m.guard p = false
  called : ∀ instr ∈ code, ∀ callee ∈ instr.callee?, ∀ s, (m.callee callee s).memory p = s.memory p

theorem Machine.Secludes.keeps {m : Machine} {p : Nat} (h : m.Secludes name p code) (part : Code)
    (hpart : part ⊆ code) (hspares : part.Spares name) : ∀ instr ∈ part, m.Keeps p instr := by
  intro instr hinstr
  refine ⟨fun other hother hplace => hspares instr hinstr ?_, h.called instr (hpart hinstr)⟩
  rw [← h.only other hplace]
  exact hother

namespace Machine.Secludes

open Lower

variable {m : Machine} {name : String} {p : Nat} {front back code : Code} {up : Bool} {s s' : Store}

theorem steps_standing (h : m.Secludes name p code) (hplace : m.place name = some p) {test : Instr}
    {marks : List String} {target : String} {hit : Memory → Bool}
    (hcode : code = front ++ test :: (marks.map .label ++ stepInstr up name :: back))
    (hforward : code.Forward fun _ => False) (hlabels : code.labels.Nodup)
    (hfront : Code.Spares (front ++ [test]) name) (hback : back.Spares name)
    (hgoal : ∀ instr ∈ front ++ [test], ∀ goal ∈ instr.goal?, goal ∈ front ∨ goal ∈ back)
    (htest : ∀ u, m.pass (.falling u) test = if hit u.memory then .falling u else .seeking target u)
    (htarget : test.goal? = some (.label target))
    (hsteps : m.Steps code (.at 0 s) (.at code.length s')) :
    (s'.memory p ≠ s.memory p ↔ ∃ u, m.Steps code (.at 0 s) (.at front.length u) ∧ hit u.memory = true) ∧
      (s'.memory p ≠ s.memory p → s'.memory p = stepped up (s.memory p)) := by
  have hflow := flow_of_steps_end hforward hlabels hsteps
  have hreach (u : Store) :
      m.Steps code (.at 0 s) (.at front.length u) ↔ m.flow front (.falling s) = .falling u := by
    subst hcode
    refine steps_iff_flow hforward hlabels fun label hlabel => ?_
    simp only [List.head?_cons, Option.some.injEq] at hlabel
    simp [hlabel, Instr.goal?] at htarget
  have hkeepsFront := h.keeps front (by simp [hcode]) (Code.spares_append.mp hfront).1
  have hkeepsBack := h.keeps back (fun instr hinstr => by simp [hcode, hinstr]) hback
  subst hcode
  simp only [hreach]
  rcases flow_guarded h.guard hlabels hkeepsFront hkeepsBack hgoal htest htarget
    (pass_stepInstr up hplace) hflow with ⟨u, hu, hhit, hword⟩ | ⟨hmiss, hword⟩
  · refine ⟨iff_of_true ?_ ⟨u, hu, hhit⟩, fun _ => hword⟩
    rw [hword]
    exact stepped_ne up _
  · refine ⟨iff_of_false (not_not_intro hword) ?_, fun hne => absurd hword hne⟩
    rintro ⟨u, hu, hhit⟩
    simp [hmiss u hu] at hhit

theorem steps_waiting (h : m.Secludes name p code) (hplace : m.place name = some p)
    (hcode : code = front ++ stepInstr up name :: back) (hforward : code.Forward fun _ => False)
    (hlabels : code.labels.Nodup) (hfront : front.Spares name) (hback : back.Spares name)
    (hend : back.labels = []) (hsteps : m.Steps code (.at 0 s) (.at code.length s')) :
    s'.memory p = stepped up (s.memory p) := by
  have hflow := flow_of_steps_end hforward hlabels hsteps
  have hkeepsFront := h.keeps front (by simp [hcode]) hfront
  have hkeepsBack := h.keeps back (fun instr hinstr => by simp [hcode, hinstr]) hback
  have hfirst : (m.flow front (.falling s)).Shows p (s.memory p) := flow_shows h.guard hkeepsFront rfl
  subst hcode
  rw [flow_append, flow_cons] at hflow
  cases hmode : m.flow front (.falling s) with
  | falling u =>
    rw [hmode] at hfirst hflow
    have hfirst : u.memory p = s.memory p := hfirst
    obtain ⟨u', hpass, hchange⟩ := pass_stepInstr up hplace u
    have hlast : (m.flow back (.falling u')).Shows p (stepped up (s.memory p)) :=
      flow_shows h.guard hkeepsBack (hfirst ▸ hchange)
    rwa [← hpass, hflow] at hlast
  | seeking label u =>
    -- Nothing is left to jump to.
    have hpass : m.pass (.seeking label u) (stepInstr up name) = .seeking label u :=
      pass_seeking_of_ne (by cases up <;> simp [stepInstr])
    rw [hmode, hpass, flow_seeking (by simp [hend])] at hflow
    cases hflow
  | done | trap => simp [hmode, pass] at hflow

end Machine.Secludes

def Session.Reached.watch {options : Options} {defined : List (Place × Definition)} {session : Session}
    (h : session.Reached options defined)
    (hwords : ∀ r ∈ session.table.registers, r.kind.isRegular = true) (function : Option String)
    {x : Slot} (hx : x ∈ session.table.slots) (hplain : x.isPlain = true)
    (hempty : x.asmName ≠ "") (hname : isRegisterName x.asmName = false) : Watch where
  ground := (Scope.start session).ground
  function := function
  word := x.unmarked
  mem := List.mem_map_of_mem hx
  kind := Slot.kind_ne_of_isPlain hplain
  names := by
    simp only [Scope.ground, List.forall_mem_map]
    intro y hy z hz heq
    rw [List.inj_on_of_nodup_map h.fronted.table.layout.names hy hz heq]
  places := by
    simp only [Scope.ground, List.forall_mem_map]
    intro y hy z hz hky hkz ha
    rw [h.fronted.table.layout.eq_of_address hy hz hky hkz ha]
  registers := by
    intro r hr
    have hregular := (h.regular hwords).plain r hr
    rw [Scope.registers_start] at hr
    obtain ⟨hmem, hregister⟩ := List.mem_filter.mp hr
    refine ⟨List.mem_map_of_mem hmem, hregular, fun heq => ?_⟩
    have heq : r.asmName = x.asmName := heq
    simp [heq, hname] at hregister
  named := by
    refine ⟨hempty, fun heq => ?_⟩
    have heq : x.asmName = "r0" := heq
    simp [heq, isRegisterName] at hname

open Lower in
/-- In a statement with `l && r` or `l || r`, where `l` is a guard and `r` steps a variable that nothing
else in the statement stores to, a step before the value changes the variable in exactly those runs that
come to the test of `l` and find `l` leaving the result open. A step after the value changes the variable
in every run, whatever `l` decides. -/
theorem Session.Reached.step_behind_guard {options : Options} {defined : List (Place × Definition)}
    {session : Session} (hsession : session.Reached options defined)
    (hwords : ∀ r ∈ session.table.registers, r.kind.isRegular = true) {f : Frame} {x : String} {slot : Slot}
    {p : Nat} (hx : (Scope.start session).ground.find? f.function x = some slot)
    (hplain : slot.isPlain = true) (hp : slot.address = some p) (hempty : slot.asmName ≠ "")
    (hregister : isRegisterName slot.asmName = false) {op : LogicalOp} {l : Expr}
    (hl : l.IsGuard ((Scope.start session).ground.plain? f.function)) {C : Context} {up before : Bool}
    {line line' line'' : Line} {r e : Expr} (hr : r = .step up before (.var x line) line')
    (he : e = C.fill (.logical op l r line''))
    (hstores : ¬ C.StoresTo (Scope.start session).ground f.function (.logical op l r line'') slot.asmName)
    (hjumps : e.jumps true < UInt32.size) {code : Code} {t : Scope}
    (h : Gives (whole (effect e)) f (.start session) code t) :
    (before = true → ∃ front test rest, code = front ++ test :: rest ∧
      l.TestedBy (Scope.start session).ground f.function op test ∧
      ∀ (m : Machine) (s s' : Store), m.Has session.table → m.Secludes slot.asmName p code →
        m.Steps code (.at 0 s) (.at code.length s') →
        (s'.memory p ≠ s.memory p ↔ ∃ u, m.Steps code (.at 0 s) (.at front.length u) ∧
          l.holds m.alu ((Scope.start session).ground.plain? f.function) u.memory = decide (op = .and)) ∧
        (s'.memory p ≠ s.memory p →
          s'.memory p = stepped up (s.memory p))) ∧
    (before = false → ∀ (m : Machine) (s s' : Store), m.Has session.table →
      m.Secludes slot.asmName p code → m.Steps code (.at 0 s) (.at code.length s') →
      s'.memory p = stepped up (s.memory p)) := by
  subst hr he
  obtain ⟨y, hy, rfl⟩ := List.mem_map.mp (Ground.mem_of_find? hx)
  let w := hsession.watch hwords f.function hy hplain hempty hregister
  have hg : w.leave.Fair := Watch.fair_leave hsession.fair
  have hhosting := C.hosting_fill hg (hosting_guarded (w := w) hg hx hplain hl line line' line'')
    (Context.passes_of_not_storesTo (w := w) hstores)
  have hsplits := effect_splits (w := w) rfl hhosting rfl h
  have hlate : (Clause.effect (C.fill (.logical op l (.step up before (.var x line) line') line''))).isConst =
    false := rfl
  obtain ⟨-, -, hmade⟩ := Clause.ends_step (Leave.fair_all hsession.fair) hlate Expr.passes_all session.jumps
    trivial (Leave.tracks_all (Clause.tracks_start session)) (by simp [Scope.start]) rfl (gives_whole h)
  have hmade := hmade t (.refl t)
  have hforward : code.Forward fun _ => False := hmade.forward
  have hlabels := hmade.linked.nodup_labels hjumps
  have hplace (m : Machine) (hm : m.Has session.table) : m.place y.asmName = some p := by
    have hk : y.kind ≠ .struct := Slot.kind_ne_of_isPlain hplain
    exact (hm y hy hk).trans hp
  rcases hsplits with ⟨hbefore, front, test, marks, back, hcode, htested, hfront, hback, hgoal⟩ |
    ⟨hbefore, front, back, hcode, hfront, hback, hend⟩
  · have hbefore : before = true := hbefore
    refine ⟨fun _ => ⟨front, test, _, hcode, htested, fun m s s' hm hsecludes hsteps => ?_⟩,
      fun hafter => by simp [hbefore] at hafter⟩
    obtain ⟨f', b, s₁, s₂, hf', hs₁, hreversed, htest⟩ := htested
    obtain ⟨test', htest', -, htarget, hpass⟩ := hl.test hf' hs₁ htest
    obtain rfl : test = test' := List.singleton_inj.mp htest'
    -- The test falls through where the guard leaves the result open.
    let opened : Memory → Bool := fun μ =>
      l.holds m.alu ((Scope.start session).ground.plain? f.function) μ == decide (op = .and)
    have hopen (u : Store) : m.pass (.falling u) test =
        if opened u.memory then .falling u else .seeking b.target u := by
      have hplaces : ∀ z ∈ (Scope.start session).ground.slots, z.kind ≠ .struct →
          m.place z.asmName = z.address := List.forall_mem_map.mpr fun z hz => hm z hz
      have hswap (a : Bool) : (if a = decide (op = .or) then Mode.seeking b.target u else .falling u) =
          if a == decide (op = .and) then .falling u else .seeking b.target u := by
        cases a <;> cases op <;> rfl
      rw [hpass m hplaces u, hreversed]
      exact hswap _
    have hruns := hsecludes.steps_standing (hplace m hm) hcode hforward hlabels hfront hback
      (fun instr hinstr goal h => (hgoal instr hinstr goal h).imp_right fun h => h.resolve_right id) hopen
      htarget hsteps
    simpa only [opened, beq_iff_eq] using hruns
  · have hbefore : before = false := hbefore
    refine ⟨fun hafter => by simp [hbefore] at hafter, fun _ m s s' hm hsecludes hsteps => ?_⟩
    exact hsecludes.steps_waiting (hplace m hm) hcode hforward hlabels hfront hback hend hsteps

theorem Ground.Writes.eq_asmName {g : Ground} {slot : Slot} (h : g.Writes slot name)
    (hplain : slot.isPlain = true) : name = slot.asmName := by
  cases h with
  | word => rfl
  | resolved hk | cell hk => simp [Slot.isPlain, hk, Kind.isRegular] at hplain

/-- A program with words `l`, `x` and `y`. -/
def guardProgram : Program where
  main := [.declaration [.keyword "long" 1, .ident "l" 1, .comma 1, .ident "x" 1, .comma 1, .ident "y" 1]]

/-- `y = l && x++` -/
def lateStep : Expr :=
  .assign none (.var "y" 2) (.logical .and (.var "l" 2) (.step true false (.var "x" 2) 2) 2) 2

open Lower in
/-- With `l` zero, `y = l && x++` takes `x` from 7 to 8. -/
theorem lateStep_taken : ∃ (m : Machine) (session : Session) (code : Code) (t : Scope) (s s' : Store),
    guardProgram.layout? {} = some session ∧
      Gives (whole (effect lateStep)) { line := 2 } (.start session) code t ∧
      m.place "l" = some 3 ∧ m.place "x" = some 4 ∧ m.Steps code (.at 0 s) (.at code.length s') ∧
      s.memory 3 = 0 ∧ s.memory 4 = 7 ∧ s'.memory 4 = 8 := by
  let code : Code := [.ifZero "l" "__CMP_1_false", .label "__AND_2_next", .ifZero "x" "__CMP_1_false",
    .jump "__CMP_1_true", .label "__CMP_1_true", .setImmediate "y" "0000000000000001",
    .jump "__CMP_1_end", .label "__CMP_1_false", .clear "y", .label "__CMP_1_end", .inc "x"]
  have hfound : (guardProgram.layout? {}).any fun session =>
      (session.table.registers.all (·.kind.isRegular) &&
        session.table.slots.all (fun slot => slot.address = some 4 → slot.asmName = "x") &&
        ((session.table.machine .unsigned).place "l" = some 3 &&
          (session.table.machine .unsigned).place "x" = some 4 &&
          (session.table.machine .unsigned).place "y" = some 5)) &&
      ((Scope.start session).ground.find? none "y").any (fun slot => slot.asmName = "y" && slot.isPlain) &&
      ((Scope.start session).ground.plain? none "l" = some 3 &&
        ((Scope.start session).ground.find? none "x").any (fun slot => slot.asmName = "x" && slot.isPlain &&
          slot.address = some 4)) &&
      (outcome (whole (effect lateStep)) { line := 2 } (.start session)).1.toOption = some code := by
    decide +kernel
  obtain ⟨session, hlayout, hfound⟩ := (Option.any_eq_true _ _).mp hfound
  simp only [Bool.and_eq_true, List.all_eq_true, Option.any_eq_true, decide_eq_true_eq] at hfound
  obtain ⟨⟨⟨⟨⟨hwords, honly⟩, ⟨hl, hx⟩, hy⟩, target, htarget, hyname, hyplain⟩, hguard, slot, hslot,
    ⟨hname, hplain⟩, hp⟩, hcode⟩ := hfound
  have hreached := Program.reached_of_layout? hlayout
  have hgives := gives_of_toOption hcode
  let m : Machine := { session.table.machine .unsigned with guard := fun _ => false }
  have hsecludes : m.Secludes slot.asmName 4 code := by
    refine ⟨fun other hother => ?_, rfl, by simp [code, Instr.callee?, Instr.setImmediate]⟩
    obtain ⟨z, hz, haddress⟩ := Option.bind_eq_some_iff.mp hother
    have hsame := List.find?_some hz
    have hsame : z.asmName = other := of_decide_eq_true hsame
    rw [← hsame, honly z (List.mem_of_find?_eq_some hz) haddress, hname]
  let s : Store := ⟨fun a => if a = 4 then 7 else 0, []⟩
  have hflow : ∃ s', m.flow code (.falling s) = .falling s' := by
    have hl : m.place "l" = some 3 := hl
    have hx : m.place "x" = some 4 := hx
    have hy : m.place "y" = some 5 := hy
    simp [code, s, Machine.pass, Machine.act, Machine.read, Machine.write, Machine.effect, Machine.change,
      Machine.branch, hl, hx, hy, Instr.setImmediate]
  obtain ⟨s', hflow⟩ := hflow
  have hsteps : m.Steps code (.at 0 s) (.at code.length s') := by
    have hpass := Machine.steps_flow (m := m) [] code [] (.falling s) (by decide +kernel)
    rw [hflow] at hpass
    simpa [Mode.run] using hpass
  have hstores : ¬ (Context.assignValue none (.var "y" 2) .hole 2).StoresTo (Scope.start session).ground
      none (.logical .and (.var "l" 2) (.step true false (.var "x" 2) 2) 2) slot.asmName := by
    rintro (⟨_, hmem, f, u, place, v, hf, hu, hplace, hwrites⟩ | ⟨_, hmem, -⟩)
    · obtain rfl := List.mem_singleton.mp hmem
      obtain ⟨z, hz, rfl⟩ := lowerVar_gives (lowerTarget_gives hplace).2.1
      have hfound := lookup_find? hz
      rw [hu, show f.function = none from hf] at hfound
      have hsame : z.unmarked = target := Option.some.inj (hfound.symm.trans htarget)
      have hzname : z.unmarked.asmName = "y" := by rw [hsame, hyname]
      have hzplain : z.unmarked.isPlain = true := by rw [hsame, hyplain]
      have hxy := hwrites.eq_asmName hzplain
      rw [hname] at hxy
      exact absurd (hxy.trans hzname) (by decide)
    · simp [Context.callees, Expr.var, Expr.callees, Expr.pathCallees] at hmem
  have he : lateStep = Context.fill (.logical .and (.var "l" 2) (.step true false (.var "x" 2) 2) 2)
    (.assignValue none (.var "y" 2) .hole 2) := rfl
  have hjumps : lateStep.jumps true < UInt32.size := by decide +kernel
  have hempty : slot.asmName ≠ "" := by simp [hname]
  have hregister : isRegisterName slot.asmName = false := by rw [hname]; decide
  have hresult := (hreached.step_behind_guard hwords hslot hplain hp hempty hregister (.word hguard) rfl he
    hstores hjumps hgives).2 rfl m s s' (Table.has_machine hreached.fronted.table.layout.names .unsigned)
    hsecludes hsteps
  exact ⟨m, session, code, _, s, s', hlayout, hgives, hl, hx, hsteps, rfl, rfl, hresult⟩

end Flatword
