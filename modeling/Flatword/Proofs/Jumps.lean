import Mathlib.Data.List.Perm.Basic
import Flatword.Proofs.Fair
import Flatword.Proofs.Linked
import Flatword.Proofs.Structured

/-!
# Jumps and labels of programs

The code of a unit jumps to labels of that unit only, and what it calls are functions of the program.
Its labels are those of the source and those made from the numbers that the unit takes, so labels of
generated code differ in the whole program.
-/

namespace Flatword

/-! ## Clauses -/

namespace Scope

variable {s t : Scope} {name : String}

theorem Rises.names (h : s.Rises t) (hs : s.Names name) : t.Names name := by
  obtain ⟨y, hy, hname, hkind⟩ := hs
  exact ⟨y, h.ground ▸ hy, hname, hkind.imp_right h.isTemp⟩

def record (s : Scope) (asmName hex : String) : Scope :=
  { s with session := { s.session with table := s.session.table.setContent asmName hex } }

theorem lists_record (asmName hex : String) {y : Slot} (hy : y ∈ s.ground.slots) :
    (s.record asmName hex).ground.Lists y := by
  let view (x : Slot) : String × Kind × Option Nat := (x.asmName, x.kind, x.address)
  have hview : (s.session.table.setContent asmName hex).slots.map view =
      s.session.table.slots.map view :=
    Table.map_updateAsm view _ _ _ fun _ _ _ => rfl
  obtain ⟨x, hx, rfl⟩ := List.mem_map.mp hy
  have hmem : view x ∈ (s.session.table.setContent asmName hex).slots.map view :=
    hview ▸ List.mem_map_of_mem hx
  obtain ⟨w, hw, heq⟩ := List.mem_map.mp hmem
  obtain ⟨hname, hkind, ha⟩ : w.asmName = x.asmName ∧ w.kind = x.kind ∧ w.address = x.address := by
    simpa [view] using heq
  exact ⟨w.unmarked, List.mem_map_of_mem hw, hname, hkind, ha⟩

theorem names_record (asmName hex : String) (hs : s.Names name) :
    (s.record asmName hex).Names name := by
  obtain ⟨y, hy, hname, hkind⟩ := hs
  obtain ⟨w, hw, hwname, hwkind, hwa⟩ := lists_record asmName hex hy
  refine ⟨w, hw, hwname.trans hname, hkind.imp (fun h => hwkind ▸ h) fun h => ?_⟩
  unfold isTemp at h ⊢
  rw [hwa]
  exact h

theorem tracks_record {g : Ground} (hs : g.Tracks s) (asmName hex : String) :
    (s.record asmName hex).ground.Tracks (s.record asmName hex) where
  ground := rfl
  target target htarget := by
    obtain ⟨⟨y, hy, hname, hkind, ha⟩, hstruct⟩ := hs.target target htarget
    obtain ⟨w, hw, hwname, hwkind, hwa⟩ := lists_record asmName hex (hs.ground ▸ hy)
    exact ⟨⟨w, hw, hwname.trans hname, hwkind.trans hkind, hwa.trans ha⟩, hstruct⟩
  post z hz := by
    intro instr hinstr
    obtain ⟨hstraight, hnames, himmediates⟩ := hs.post s (.refl s) instr hinstr
    exact ⟨hstraight, fun name hname => hz.names (names_record asmName hex (hnames name hname)),
      himmediates⟩

end Scope

theorem Code.Made.transfer {L : Leave} {s t : Scope} {E : Instr → Prop} {j : UInt32} {n : Nat}
    {code : Code} (h : code.Made L s E j n) (hnames : ∀ name, s.Names name → t.Names name) :
    code.Made L t E j n :=
  ⟨h.linked, h.forward, fun instr hinstr => ⟨⟨fun name hname =>
    hnames name ((h.sits instr hinstr).refers.names name hname),
    (h.sits instr hinstr).refers.immediates⟩, (h.sits instr hinstr).called,
    (h.sits instr hinstr).writes, (h.sits instr hinstr).late⟩⟩

theorem Instr.Refers.const {N : String → Prop} {instr : Instr} (h : instr.Refers N) :
    (Instr.const instr).Refers N :=
  ⟨h.names, h.immediates⟩

namespace Leave

variable {L : Leave} {α β : Type} {m : Lower α} {k : α → Lower β} {P : Scope → α → Prop}
  {R : Scope → β → Prop} {j : UInt32} {n i : Nat}

/-- A step at the end of a statement, where what has been left for after the statement is taken. -/
def Ends (L : Leave) (j : UInt32) (n : Nat) (m : Lower α) (Q : Scope → α → Prop) : Prop :=
  ∀ ⦃f : Frame⦄ ⦃s : Scope⦄ ⦃v : α⦄ ⦃t : Scope⦄, L.function f.function → L.Tracks s →
    (∀ instr ∈ s.post, ∀ name ∈ instr.written?, L.writable name) → s.session.jumps = j →
      Gives m f s v t → s.Rises t ∧ t.session.jumps = j + UInt32.ofNat n ∧ ∀ z, t.Rises z → Q z v

theorem Onward.post {s t : Scope} (h : L.Onward s t)
    (hs : ∀ instr ∈ s.post, ∀ name ∈ instr.written?, L.writable name) :
    ∀ instr ∈ t.post, ∀ name ∈ instr.written?, L.writable name := by
  obtain ⟨added, ht, hadded⟩ := h.queue
  rw [ht]
  exact List.forall_mem_append.mpr ⟨hs, hadded⟩

theorem Ends.mono {Q : Scope → α → Prop} (h : L.Ends j n m P)
    (hPQ : ∀ z v, z.ground = L.toGround → P z v → Q z v) : L.Ends j n m Q := by
  intro f s v t hf hs hpost hj hm
  obtain ⟨hst, hjt, hP⟩ := h hf hs hpost hj hm
  exact ⟨hst, hjt, fun z hz => hPQ z v (hz.ground.trans (hst.ground.trans hs.ground)) (hP z hz)⟩

theorem Pens.ends (h : L.Pens j n m P) : L.Ends j n m P := by
  intro f s v t hf hs _ hj hm
  obtain ⟨-, hst, hjt, hP⟩ := h hf hs hj hm
  exact ⟨hst.rises, hjt, hP⟩

theorem Pens.bindEnds (hm : L.Pens j n m P)
    (hk : ∀ a, L.Ends (j + UInt32.ofNat n) i (k a) fun z v => P z a → R z v) :
    L.Ends j (n + i) (m >>= k) R := by
  intro f s v t hf hs hpost hj h
  obtain ⟨a, u, ha, h⟩ := gives_bind.mp h
  obtain ⟨hu, hsu, hju, hP⟩ := hm hf hs hj ha
  obtain ⟨hut, hjt, hR⟩ := hk a hf hu (hsu.post hpost) hju h
  refine ⟨hsu.rises.trans hut, ?_, fun z hz => hR z hz (hP z (hut.trans hz))⟩
  rw [hjt, UInt32.add_assoc, ← UInt32.ofNat_add]

theorem Quiet.bindEnds (hm : L.Quiet m P) (hk : ∀ a, L.Ends j n (k a) fun z v => P z a → R z v) :
    L.Ends j n (m >>= k) R := by
  have hbind := (hm j).bindEnds (i := n) (k := k) (R := R) (by simpa using hk)
  rwa [Nat.zero_add] at hbind

end Leave

namespace Lower

open Ground Leave

variable {L : Leave}

theorem quiet_allowReuse : L.Quiet allowReuse fun _ _ => True := by
  refine quiet_modify fun s hs => ?_
  have hrises : s.Rises { s with reuse := s.reuse.allow } := by
    refine ⟨rfl, fun target htarget => ?_⟩
    revert htarget
    cases s.reuse <;> simp [Reuse.taken?, Reuse.allow]
  have hsame : ∀ target ∈ s.reuse.allow.target?, target ∈ s.reuse.target? := by
    cases s.reuse <;> simp [Reuse.target?, Reuse.allow]
  exact ⟨⟨⟨hs.ground, fun target h => hs.target target (hsame target h), fun z hz =>
    hs.post z (hrises.trans hz)⟩, fun target h => hs.spare target (hsame target h)⟩,
    onward_of_post hrises rfl, rfl⟩

theorem quiet_checkUsed (e : Expr) (value : Slot) : L.Quiet (checkUsed e value) fun _ _ => True := by
  unfold checkUsed
  split
  · exact quiet_fail
  · exact quiet_pure fun _ _ => trivial

theorem ends_takePost {α : Type} (done : Code → α) (j : UInt32) :
    L.Ends j 0 (takePost >>= fun post => pure (done post)) fun z v =>
      ∃ post, L.Keeps z post ∧ v = done post := by
  intro f s v t _ hs hpost hj h
  simp only [takePost, gives_bind, gives_get, gives_set, gives_pure] at h
  obtain ⟨_, _, ⟨_, _, ⟨rfl, rfl⟩, _, _, rfl, rfl, rfl⟩, rfl, rfl⟩ := h
  have hrises : s.Rises { s with post := [] } := ⟨rfl, fun _ h => h⟩
  refine ⟨hrises, by simp [hj], fun z hz => ⟨s.post, fun instr hinstr => ?_, rfl⟩⟩
  exact ⟨hs.post z (hrises.trans hz) instr hinstr, hpost instr hinstr⟩

end Lower

namespace Clause

variable {clause : Clause} {code : Code} {f : Frame}

open Lower Ground Leave

def expr : Clause → Expr
  | effect e | const e | condition e _ | value e => e

/-- How many numbers for labels a clause takes. -/
def jumps : Clause → Nat
  | effect e | const e | value e => e.jumps true
  | condition e _ => e.jumps false

def Exits : Clause → Instr → Prop
  | condition _ b, goal => b.Exits goal
  | _, _ => False

theorem ends_step {L : Leave} (hg : L.Fair) (hconst : clause.isConst = false)
    (h : Expr.Passes L clause.expr.targets clause.expr.callees) (j : UInt32) :
    L.Ends j clause.jumps clause.step fun z code => code.Made L z clause.Exits j clause.jumps := by
  cases clause with
  | effect e =>
    refine quiet_allowReuse.bindEnds fun _ => ((e.links_lowering hg h).value j).bindEnds (i := 0) fun v => ?_
    refine (quiet_checkUsed e v.slot).bindEnds fun _ => (quiet_releaseOperand v.slot).bindEnds fun _ => ?_
    refine (ends_takePost _ _).mono fun z code _ hcode _ _ hv _ => ?_
    obtain ⟨post, hpost, rfl⟩ := hcode
    exact hv.2.widen.append_straight hpost
  | const e => simp [isConst] at hconst
  | condition e b =>
    refine Pens.ends (((e.links_lowering hg h).branch b j).bindQuiet fun code =>
      quiet_get.bindQuiet fun s => ?_)
    split
    · exact quiet_fail_bind
    · exact quiet_pure fun z _ _ hcode => hcode
  | value e =>
    refine ((e.links_lowering hg h).value j).bindEnds (i := 0) fun v => ?_
    refine (quiet_flatten hg v.slot).bindEnds fun flat => (quiet_flatRelease flat).bindEnds fun _ => ?_
    refine (quiet_releaseOperand v.slot).bindEnds fun _ => ?_
    refine (ends_takePost _ _).mono fun z code hz hcode _ _ hflat hv => ?_
    obtain ⟨post, hpost, rfl⟩ := hcode
    obtain ⟨y, hy, hname, hkind⟩ := hg.result
    have hresult : z.Names "r0" := ⟨y, hz ▸ hy, hname, .inl hkind⟩
    have hflat := hflat hv.1
    have hmove : L.Keeps z [.move "r0" flat.slot.asmName] := by
      simpa using ⟨⟨hresult, hg.returned⟩, hflat.names⟩
    have hcode := ((hv.2.append_straight hflat.code).append_straight hmove).append_straight hpost
    refine hcode.widen.append (k := 0) (.of_exits fun instr hinstr => ?_)
    obtain rfl := List.mem_singleton.mp hinstr
    exact ⟨⟨⟨by simp [Instr.names], by simp [Instr.immediates]⟩, by simp [Instr.callee?],
      by simp [Instr.written?], rfl, rfl⟩, rfl, by simp [Instr.goal?]⟩

/-- What the code of a clause is, seen from the scope at its end. -/
structure Done (s : Session) (clause : Clause) (code : Code) (t : Scope) : Prop where
  jumps : t.session.jumps = s.jumps + UInt32.ofNat clause.jumps
  functions : t.session.functions = s.functions
  linked : code.Linked clause.Exits [] s.jumps clause.jumps
  refers : ∀ instr ∈ code, instr.Refers t.Names
  called : ∀ instr ∈ code, ∀ callee ∈ instr.callee?,
    ∃ f ∈ s.functions, callee = Assembly.entry f.name
  late : clause.isConst = false → ∀ instr ∈ code, instr.isEarly = false
  silent : ∀ instr ∈ code, instr.isComment = false

theorem tracks_start (s : Session) : (Scope.start s).ground.Tracks (.start s) :=
  ⟨rfl, by simp [Scope.start, Reuse.target?], fun _ _ => Code.straight_nil⟩

theorem done_const {s : Session} (hg : (Scope.start s).ground.Fair) {e : Expr} {t : Scope}
    (h : Gives (constEffect e) f (.start s) code t) : (const e).Done s code t := by
  simp only [constEffect, gives_bind] at h
  obtain ⟨w, _, hvalue, v, u, hlower, _, u₁, hrecord, hrest⟩ := h
  obtain ⟨-, rfl⟩ := gives_orFail.mp hvalue
  obtain ⟨hu, hrises, hjumps, hmade⟩ :=
    (e.links_lowering (fair_all hg) Expr.passes_all).value s.jumps trivial (tracks_all (tracks_start s)) rfl
      hlower
  have hfunctions : u.session.functions = s.functions := congrArg Ground.functions hu.ground
  have htail (g : Ground) (j : UInt32) : (Leave.all g).Ends j 0 (do
        releaseOperand v.slot
        let post ← takePost
        return v.code.map Instr.const ++ post) fun z code =>
      ∃ post : Code, (Leave.all g).Keeps z post ∧ code = v.code.map Instr.const ++ post :=
    (quiet_releaseOperand v.slot).bindEnds fun _ => (ends_takePost _ _).mono fun _ _ _ h _ => h
  -- the rest is quiet, whether a value has been recorded or not
  have hdone {g : Ground} (hg : g.Tracks u₁) (hsession : u₁.session.jumps = u.session.jumps)
      (hsigned : u₁.session.functions = u.session.functions)
      (hnames : ∀ name, u.Names name → u₁.Names name) : (const e).Done s code t := by
    obtain ⟨hut, hj, hcode⟩ := htail g u₁.session.jumps trivial (tracks_all hg) (by simp) rfl
      (by simpa [gives_bind] using hrest)
    obtain ⟨post, hpost, rfl⟩ := hcode t (.refl t)
    have hv := (hmade u (.refl u)).2.transfer fun name hname => hut.names (hnames name hname)
    have hpost' : post.Made (Leave.all g) t (fun _ => False) (s.jumps + UInt32.ofNat (e.jumps true)) 0 :=
      .of_straight hpost
    refine ⟨?_, ?_, hv.linked.const.append (hpost'.linked.mono fun _ => False.elim), ?_, ?_, by
      simp [isConst], ?_⟩
    · rw [hj, hsession, hjumps]
      simp [Clause.jumps]
    · exact (congrArg Ground.functions hut.ground).trans (hsigned.trans hfunctions)
    · simp only [List.forall_mem_append, List.forall_mem_map]
      exact ⟨fun x hx => (hv.sits x hx).refers.const, fun x hx => (hpost'.sits x hx).refers⟩
    · simp only [List.forall_mem_append, List.forall_mem_map]
      exact ⟨fun x hx => (hv.sits x hx).called, fun x hx => by simp [(hpost x hx).straight.plain.2.2]⟩
    · simp only [List.forall_mem_append, List.forall_mem_map]
      exact ⟨fun _ _ => trivial, fun x hx => (hpost'.sits x hx).late.2⟩
  unfold recordConstant at hrecord
  split at hrecord
  · obtain rfl := gives_modify.mp hrecord
    exact hdone (Scope.tracks_record hu.toTracks _ _) rfl rfl fun name => Scope.names_record _ _
  · obtain ⟨-, rfl⟩ := gives_pure.mp hrecord
    exact hdone hu.toTracks rfl rfl fun _ => id

theorem leads {s : Session} {t : Scope} (h : Gives (whole clause.step) f (.start s) code t) :
    s.Leads t.session := by
  have hmove := Session.Move.sentence s clause.sentence f
  rw [← outcome_whole_snd, show (outcome (whole clause.step) f (.start s)).2 = t from
    congrArg Prod.snd h] at hmove
  exact .move hmove

theorem done {s : Session} (hg : (Scope.start s).ground.Fair) {t : Scope}
    (h : Gives (whole clause.step) f (.start s) code t) : clause.Done s code t := by
  have h := gives_whole h
  by_cases hconst : clause.isConst = true
  · cases clause <;> simp [isConst] at hconst
    exact done_const hg h
  · obtain ⟨hrises, hjumps, hmade⟩ := ends_step (fair_all hg) (Bool.not_eq_true _ ▸ hconst)
      Expr.passes_all s.jumps trivial (tracks_all (tracks_start s)) (by simp [Scope.start]) rfl h
    have hmade := hmade t (.refl t)
    exact ⟨hjumps, congrArg Ground.functions hrises.ground, hmade.linked,
      fun instr hinstr => (hmade.sits instr hinstr).refers,
      fun instr hinstr => (hmade.sits instr hinstr).called,
      fun _ instr hinstr => (hmade.sits instr hinstr).late.1,
      fun instr hinstr => (hmade.sits instr hinstr).late.2⟩

end Clause

/-! ## Statements -/

/-- A session from which code can be emitted: lowering finds what it relies on, now and later. -/
def Session.Fit (s : Session) : Prop :=
  ∀ t, s.Leads t → (Scope.start t).ground.Fair

namespace Session

variable {s t : Session}

theorem Fit.fair (h : s.Fit) : (Scope.start s).ground.Fair :=
  h s (.refl s)

theorem Fit.leads (h : s.Fit) (hleads : s.Leads t) : t.Fit :=
  fun u hu => h u (hleads.trans hu)

theorem Fit.newJump (h : s.Fit) : s.newJump.2.Fit :=
  h.leads (.move (.number s))

theorem Reached.fit {options : Options} {defined : List (Place × Definition)}
    (h : Reached options defined s) : s.Fit :=
  fun _ ht => (h.emit ht).fair

end Session

namespace Emit

variable {code : Code} {line : Line} {yes : Emit Code}

/-- Code emitted between two sessions. It is linked, it sets the labels `own` of the source, and it
calls functions of the session. -/
structure Delivers (E : Instr → Prop) (own : List String) (n : Nat) (s : Session) (code : Code)
    (t : Session) : Prop where
  leads : s.Leads t
  jumps : t.jumps = s.jumps + UInt32.ofNat n
  functions : t.functions = s.functions
  linked : code.Linked E own s.jumps n
  called : ∀ instr ∈ code, ∀ callee ∈ instr.callee?,
    ∃ f ∈ s.functions, callee = Assembly.entry f.name

namespace Delivers

variable {E E' : Instr → Prop} {own own' : List String} {n k : Nat} {s t u : Session}
  {code code' inner : Code}

theorem mono (h : Delivers E own n s code t) (hE : ∀ goal, E goal → E' goal) :
    Delivers E' own n s code t :=
  ⟨h.leads, h.jumps, h.functions, h.linked.mono hE, h.called⟩

theorem append (h : Delivers E own n s code t) (h' : Delivers E own' k t code' u) :
    Delivers E (own ++ own') (n + k) s (code ++ code') u where
  leads := h.leads.trans h'.leads
  jumps := by rw [h'.jumps, h.jumps, UInt32.add_assoc, ← UInt32.ofNat_add]
  functions := h'.functions.trans h.functions
  linked := h.linked.append (h.jumps ▸ h'.linked)
  called instr hinstr := by
    rcases List.mem_append.mp hinstr with hinstr | hinstr
    · exact h.called instr hinstr
    · exact h.functions ▸ h'.called instr hinstr

theorem of_exits (h : ∀ instr ∈ code, instr.labelName? = none ∧ instr.callee? = none ∧
    ∀ goal ∈ instr.goal?, E goal) : Delivers E [] 0 s code s where
  leads := .refl s
  jumps := by simp
  functions := rfl
  linked := .of_exits fun instr hinstr => ⟨(h instr hinstr).1, (h instr hinstr).2.2⟩
  called instr hinstr := by simp [(h instr hinstr).2.1]

theorem nil : Delivers E [] 0 s [] s :=
  of_exits (by simp)

theorem label (name : String) (s : Session) : Delivers E [name] 0 s [.label name] s := by
  refine ⟨.refl s, by simp, rfl, ⟨by simp [Instr.goal?], by simp, [], ?_, .of_labels_eq_nil rfl⟩,
    by simp [Instr.callee?]⟩
  simp

theorem clause {clause : Clause} {f : Frame} {t : Scope} (hs : s.Fit)
    (h : Gives (Lower.whole clause.step) f (.start s) code t) :
    Delivers clause.Exits [] clause.jumps s code t.session := by
  have hdone := Clause.done hs.fair h
  exact ⟨Clause.leads h, hdone.jumps, hdone.functions, hdone.linked, hdone.called⟩

theorem enclose {id : String} (h : Delivers E' own n s.newJump.2 inner t) (hid : id = s.newJump.1)
    (names : List String) (hE : ∀ goal, E' goal → goal ∈ code ∨ E goal)
    (hcode : ∀ instr ∈ code, instr ∈ inner ∨ instr.callee? = none ∧
      ∀ goal ∈ instr.goal?, goal ∈ code ∨ E goal)
    (hinner : inner ⊆ code := by intro; simp only [List.mem_append]; tauto)
    (hperm : code.labelNames.Perm (names ++ inner.labelNames) := by
      rw [List.perm_iff_count]; intro; simp [List.count_cons]; omega)
    (hnames : ∀ name ∈ names, name ∈ Label.family id := by simp [LoopLabels.ofId, Label.family])
    (hnodup : names.Nodup := by simp [LoopLabels.ofId, toString]) :
    Delivers E own (1 + n) s code t where
  leads := (Session.Leads.move (.number s)).trans h.leads
  jumps := by
    rw [h.jumps, UInt32.ofNat_add, ← UInt32.add_assoc]
    rfl
  functions := h.functions
  linked := by
    subst hid
    exact h.linked.enclose names hinner hE
      (fun instr hinstr => (hcode instr hinstr).imp_right And.right) hperm hnames hnodup
  called instr hinstr := by
    rcases hcode instr hinstr with hin | ⟨hcallee, -⟩
    · exact h.called instr hin
    · simp [hcallee]

end Delivers

/-- Where code inside a loop of a unit may go: to a label of the unit, or on with the loop, or out of
it. -/
def Exits (labels : List String) (loop : Option String) (goal : Instr) : Prop :=
  (∃ name ∈ labels, goal = .label name) ∨
    ∃ id ∈ loop, goal = .label (LoopLabels.ofId id).onContinue ∨
      goal = .label (LoopLabels.ofId id).onBreak

/-- A step whose code takes `n` numbers and sets labels of the source. -/
def Links (labels : List String) (E : Instr → Prop) (own : List String) (n : Nat)
    (m : Emit Code) : Prop :=
  ∀ ⦃r : Routine⦄ ⦃p : Progress⦄ ⦃code : Code⦄ ⦃q : Progress⦄, r.labels = labels →
    p.session.Fit → Gives m r p code q → Delivers E own n p.session code q.session

variable {labels own own' : List String} {E : Instr → Prop} {n k : Nat} {loop : Option String}

theorem links_pure
    (h : ∀ instr ∈ code, instr.labelName? = none ∧ instr.callee? = none ∧ ∀ goal ∈ instr.goal?, E goal) :
    Links labels E [] 0 (pure code) := by
  intro r p _ q _ _ hpure
  obtain ⟨rfl, rfl⟩ := gives_pure.mp hpure
  exact .of_exits h

theorem links_throw {failure : Failure} : Links labels E own n (throw failure) :=
  fun _ _ _ _ _ _ h => absurd h gives_throw

theorem links_comment (line? : Option Line) : Links labels E [] 0 (comment line?) := by
  intro r p code q _ _ h
  obtain ⟨hsession, rfl | ⟨text, rfl⟩⟩ := gives_comment h <;> rw [hsession]
  · exact .nil
  · exact .of_exits (by simp [Instr.labelName?, Instr.callee?, Instr.goal?])

theorem links_commented {line? : Option Line} {m : Emit Code} (h : Links labels E own n m) :
    Links labels E own n (commented line? m) := by
  intro r p code q hr hp hm
  simp only [commented, gives_bind, gives_pure] at hm
  obtain ⟨note, p₁, hnote, code, p₂, hcode, rfl, rfl⟩ := hm
  have hnote := links_comment line? (E := E) hr hp hnote
  have happend := hnote.append (h hr (hp.leads hnote.leads) hcode)
  rwa [List.nil_append, Nat.zero_add] at happend

section Clauses

variable {e : Expr}

theorem links_clause (clause : Clause) (line : Line) :
    Links labels clause.Exits [] clause.jumps (inScope line clause.step clause.isConst) := by
  intro r p code q _ hp h
  obtain ⟨t, ht, rfl⟩ := gives_inScope.mp h
  exact .clause hp ht

theorem links_expression : Links labels E [] (e.asStatement.jumps true) (expression e) :=
  fun _ _ _ _ hr hp h => (links_clause (.effect e.asStatement) e.line hr hp h).mono
    fun _ => False.elim

theorem links_condition {b : Lower.Branch} : Links labels b.Exits [] (e.jumps false) (condition e b) :=
  links_clause (.condition e b) e.line

def stepJumps (step : Option Expr) : Nat :=
  step.elim 0 fun e => e.asStatement.jumps true

theorem links_optionalExpression (step : Option Expr) :
    Links labels E [] (stepJumps step) (optionalExpression step) := by
  cases step with
  | none => exact links_pure (by simp)
  | some e => exact links_expression

def testJumps (test : Option Expr) : Nat :=
  test.elim 0 fun e => e.jumps false

theorem links_optionalCondition (test : Option Expr) (b : Lower.Branch) :
    Links labels b.Exits [] (testJumps test) (optionalCondition test b) := by
  cases test with
  | none => exact links_pure (by simp)
  | some e => exact links_condition

theorem links_declaration (tokens : List Token) :
    Links labels E [] 0 (do declaration tokens; return []) := by
  intro r p code q _ _ h
  obtain ⟨rfl, names, rfl⟩ := gives_declaration h
  have hleads (names : List String) (s : Session) :
      s.Leads { s with table := names.foldl Table.markDeclared s.table } := by
    induction names generalizing s with
    | nil => exact .refl s
    | cons name names ih => exact (Session.Leads.move (.declared s name)).trans (ih _)
  exact ⟨hleads names p.session, by simp, rfl, .of_exits (by simp), by simp⟩

def valueJumps (value : Option Expr) : Nat :=
  value.elim 0 fun e => e.jumps true

theorem links_returnStatement (value : Option Expr) (line : Line) :
    Links labels E [] (valueJumps value) (returnStatement value line) := by
  intro r p code q hr hp h
  rw [returnStatement, gives_read_bind] at h
  split at h
  · exact absurd h gives_throw
  · split at h
    · exact links_pure (by simp [Instr.labelName?, Instr.callee?, Instr.goal?]) hr hp h
    · exact absurd h gives_throw
  · split at h
    · exact absurd h gives_throw
    · exact (links_clause (.value _) line hr hp h).mono fun _ => False.elim

theorem links_jumpInLoop {label : LoopLabels → String} {cause : Cause}
    (hlabel : ∀ id ∈ loop, Exits labels loop (.label (label (.ofId id)))) :
    Links labels (Exits labels loop) [] 0 (jumpInLoop loop label line cause) := by
  cases loop with
  | none => exact links_throw
  | some id =>
    exact links_pure (by simpa [Instr.labelName?, Instr.callee?, Instr.goal?] using hlabel id rfl)

theorem links_goto {target : String} : Links labels (Exits labels loop) [] 0 (goto target line) := by
  intro r p code q hr hp h
  rw [goto, gives_read_bind] at h
  split at h
  · next htarget =>
    have hexit : Exits labels loop (.label target) := .inl ⟨target, hr ▸ htarget, rfl⟩
    exact links_pure (by simpa [Instr.labelName?, Instr.callee?, Instr.goal?] using hexit) hr hp h
  · exact absurd h gives_throw

end Clauses

/-! ## Control structures -/

section Structures

variable {e : Expr} {body : String → Emit Code}

theorem exits_loop {id : String} {goal : Instr} (h : Exits labels (some id) goal)
    (hcontinue : .label (LoopLabels.ofId id).onContinue ∈ code)
    (hbreak : .label (LoopLabels.ofId id).onBreak ∈ code) : goal ∈ code ∨ Exits labels loop goal := by
  rcases h with h | ⟨_, hid, hgoal⟩
  · exact .inr (.inl h)
  · obtain rfl := Option.some.inj hid
    rcases hgoal with rfl | rfl
    · exact .inl hcontinue
    · exact .inl hbreak

theorem links_ifThen (hyes : Links labels (Exits labels loop) own n yes) :
    Links labels (Exits labels loop) own (1 + (e.jumps false + n)) (ifElse e yes none) := by
  intro r p code q hr hp h
  simp only [ifElse, gives_bind, gives_newJump, gives_pure] at h
  obtain ⟨id, p₁, ⟨hid, rfl⟩, tested, p₂, htest, first, p₃, hfirst, _, _, ⟨rfl, rfl⟩, rfl, rfl⟩ := h
  have hp₁ := hp.newJump
  have htest := links_condition hr hp₁ htest
  have hfirst := hyes hr (hp₁.leads htest.leads) hfirst
  have hinner := (htest.mono fun _ => Or.inl).append (hfirst.mono fun _ => Or.inr)
  refine hinner.enclose hid [s!"__if{id}_start", s!"__if{id}_endif"] ?_ ?_
  · rintro goal ((rfl | rfl) | hgoal)
    · simp
    · simp
    · exact .inr hgoal
  · intro instr hinstr
    simp only [List.mem_append, List.mem_cons, List.not_mem_nil, or_false] at hinstr ⊢
    rcases hinstr with ((htest | rfl) | hfirst) | rfl
    all_goals simp_all [Instr.callee?, Instr.goal?]

theorem links_ifThenElse {yes no : Emit Code} (hyes : Links labels (Exits labels loop) own n yes)
    (hno : Links labels (Exits labels loop) own' k no) :
    Links labels (Exits labels loop) (own ++ own') (1 + (e.jumps false + n + k))
      (ifElse e yes (some no)) := by
  intro r p code q hr hp h
  simp only [ifElse, gives_bind, gives_newJump, gives_pure] at h
  obtain ⟨id, p₁, ⟨hid, rfl⟩, tested, p₂, htest, first, p₃, hfirst, other, p₄, hother, _, _,
    ⟨rfl, rfl⟩, rfl, rfl⟩ := h
  have hp₁ := hp.newJump
  have htest := links_condition hr hp₁ htest
  have hp₂ := hp₁.leads htest.leads
  have hfirst := hyes hr hp₂ hfirst
  have hother := hno hr (hp₂.leads hfirst.leads) hother
  have hinner := ((htest.mono fun _ => Or.inl).append (hfirst.mono fun _ => Or.inr)).append
    (hother.mono fun _ => Or.inr)
  refine hinner.enclose hid [s!"__if{id}_start", s!"__if{id}_else", s!"__if{id}_endif"] ?_ ?_
  · rintro goal ((rfl | rfl) | hgoal)
    · simp
    · simp
    · exact .inr hgoal
  · intro instr hinstr
    simp only [List.mem_append, List.mem_cons, List.not_mem_nil, or_false] at hinstr ⊢
    rcases hinstr with (((htest | rfl) | hfirst) | (rfl | rfl) | hother) | rfl
    all_goals simp_all [Instr.callee?, Instr.goal?]

theorem links_whileLoop
    (hbody : ∀ id, Links labels (Exits labels (some id)) own n (body id)) :
    Links labels (Exits labels loop) own (1 + (e.jumps false + n)) (whileLoop e body) := by
  intro r p code q hr hp h
  simp only [whileLoop, gives_bind, gives_newJump, gives_pure] at h
  obtain ⟨id, p₁, ⟨hid, rfl⟩, tested, p₂, htest, code, p₃, hcode, rfl, rfl⟩ := h
  have hp₁ := hp.newJump
  have htest := links_condition hr hp₁ htest
  have hcode := hbody id hr (hp₁.leads htest.leads) hcode
  have hinner := (htest.mono fun _ => Or.inl).append (hcode.mono fun _ => Or.inr)
  refine hinner.enclose hid [(LoopLabels.ofId id).onContinue, (LoopLabels.ofId id).start,
    (LoopLabels.ofId id).onBreak] ?_ ?_
  · rintro goal ((rfl | rfl) | hgoal)
    · simp
    · simp
    · exact exits_loop hgoal (by simp) (by simp)
  · intro instr hinstr
    simp only [List.mem_append, List.mem_cons, List.not_mem_nil, or_false] at hinstr ⊢
    rcases hinstr with (((rfl | htest) | rfl) | hbody) | rfl | rfl
    all_goals simp_all [Instr.callee?, Instr.goal?]

theorem links_doLoop (hbody : ∀ id, Links labels (Exits labels (some id)) own n (body id)) :
    Links labels (Exits labels loop) own (1 + (n + e.jumps false)) (doLoop e body) := by
  intro r p code q hr hp h
  simp only [doLoop, gives_bind, gives_newJump, gives_pure] at h
  obtain ⟨id, p₁, ⟨hid, rfl⟩, code, p₂, hcode, note, p₃, hnote, tested, p₄, htest, rfl, rfl⟩ := h
  have hp₁ := hp.newJump
  have hcode := hbody id hr hp₁ hcode
  have hp₂ := hp₁.leads hcode.leads
  have hnote := links_comment (E := Exits labels (some id)) _ hr hp₂ hnote
  have htest := links_condition hr (hp₂.leads hnote.leads) htest
  have hinner := ((hcode.append hnote).mono fun _ => Or.inl).append (htest.mono fun _ => Or.inr)
  rw [List.append_nil, List.append_nil] at hinner
  refine hinner.enclose hid [(LoopLabels.ofId id).onContinue, (LoopLabels.ofId id).start,
    (LoopLabels.ofId id).onBreak] ?_ ?_
  · rintro goal (hgoal | rfl | rfl)
    · exact exits_loop hgoal (by simp) (by simp)
    · simp
    · simp
  · intro instr hinstr
    simp only [List.mem_append, List.mem_cons, List.not_mem_nil, or_false] at hinstr ⊢
    rcases hinstr with (((((rfl | hbody) | rfl) | hnote) | htest) | rfl)
    all_goals simp_all [Instr.callee?, Instr.goal?]

theorem links_forLoop {init test step : Option Expr}
    (hbody : ∀ id, Links labels (Exits labels (some id)) own n (body id)) :
    Links labels (Exits labels loop) own (1 + (stepJumps init + testJumps test + n + stepJumps step))
      (forLoop init test step body) := by
  intro r p code q hr hp h
  simp only [forLoop, gives_bind, gives_newJump, gives_pure] at h
  obtain ⟨id, p₁, ⟨hid, rfl⟩, first, p₂, hfirst, tested, p₃, htest, code, p₄, hcode, last, p₅, hlast,
    rfl, rfl⟩ := h
  have hp₁ := hp.newJump
  have hfirst := links_optionalExpression (E := Exits labels (some id)) init hr hp₁ hfirst
  have hp₂ := hp₁.leads hfirst.leads
  have htest := links_optionalCondition test _ hr hp₂ htest
  have hp₃ := hp₂.leads htest.leads
  have hcode := hbody id hr hp₃ hcode
  have hlast := links_optionalExpression (E := Exits labels (some id)) step hr
    (hp₃.leads hcode.leads) hlast
  have hinner := (((hfirst.mono fun _ => Or.inl).append (htest.mono fun _ => Or.inr)).append
    (hcode.mono fun _ => Or.inl)).append (hlast.mono fun _ => Or.inl)
  rw [List.append_nil] at hinner
  refine hinner.enclose hid [s!"__loop{id}_condition", (LoopLabels.ofId id).onContinue,
    (LoopLabels.ofId id).start, (LoopLabels.ofId id).onBreak] ?_ ?_
  · rintro goal (hgoal | rfl | rfl)
    · exact exits_loop hgoal (by simp) (by simp)
    · simp
    · simp
  · intro instr hinstr
    simp only [List.mem_append, List.mem_cons, List.not_mem_nil, or_false] at hinstr ⊢
    rcases hinstr with ((((((hfirst | rfl) | htest) | rfl) | hbody) | rfl) | hlast) | rfl | rfl
    all_goals simp_all [Instr.callee?, Instr.goal?]

end Structures

theorem links_label (name : String) : Links labels E [name] 0 (pure [.label name]) := by
  intro r p _ q _ _ hpure
  obtain ⟨rfl, rfl⟩ := gives_pure.mp hpure
  exact .label name p.session

end Emit

namespace Stmt

open Emit

mutual

/-- How many numbers for labels a statement takes. -/
def jumps : Stmt → Nat
  | expression e => e.asStatement.jumps true
  | const e => e.jumps true
  | ifElse e thenBranch elseBranch _ =>
    1 + (e.jumps false + blockJumps thenBranch + elseJumps elseBranch)
  | whileLoop e body _ => 1 + (e.jumps false + blockJumps body)
  | doLoop body e _ => 1 + (blockJumps body + e.jumps false)
  | forLoop init e step body _ =>
    1 + (stepJumps init + testJumps e + blockJumps body + stepJumps step)
  | ret value _ => valueJumps value
  | block body => blockJumps body
  | _ => 0

def blockJumps : List Stmt → Nat
  | [] => 0
  | stmt :: rest => stmt.jumps + blockJumps rest

def elseJumps : Option (List Stmt) → Nat
  | none => 0
  | some body => blockJumps body

end

/-- The names of the labels in the blocks of a unit. -/
def labelNames (body : List Stmt) : List String :=
  (blockLabels body).map LabelAt.name

variable {known : List String}

mutual

theorem links_emit (loop : Option String) : (stmt : Stmt) →
    Links known (Exits known loop) (stmt.labels.map LabelAt.name) stmt.jumps (stmt.emit loop)
  | expression e => links_commented links_expression
  | const e => links_commented fun _ _ _ _ hr hp h =>
    (links_clause (.const e) e.line hr hp h).mono fun _ => False.elim
  | declaration tokens => links_declaration tokens
  | structDefinition _ _ _ => links_pure (by simp)
  | ifElse e thenBranch none line =>
    links_commented (by
      have hyes := links_emitBlock loop thenBranch
      have hif := links_ifThen (e := e) hyes
      simpa [labels, elseLabels, labelNames, jumps, elseJumps, emitElse] using hif)
  | ifElse e thenBranch (some elseBranch) line =>
    links_commented (by
      have hyes := links_emitBlock loop thenBranch
      have hno := links_emitBlock loop elseBranch
      have hif := links_ifThenElse (e := e) hyes hno
      simpa [labels, elseLabels, labelNames, jumps, elseJumps, emitElse] using hif)
  | whileLoop e body line => links_commented (links_whileLoop fun id => links_emitBlock (some id) body)
  | doLoop body e line => links_commented (links_doLoop fun id => links_emitBlock (some id) body)
  | forLoop init e step body line =>
    links_commented (links_forLoop fun id => links_emitBlock (some id) body)
  | breakLoop line =>
    links_commented (links_jumpInLoop fun id hid => .inr ⟨id, hid, .inr rfl⟩)
  | continueLoop line =>
    links_commented (links_jumpInLoop fun id hid => .inr ⟨id, hid, .inl rfl⟩)
  | goto target line => links_commented links_goto
  | label name line => links_commented (links_label name)
  | exit line | halt line =>
    links_commented (links_pure (by simp [Instr.labelName?, Instr.callee?, Instr.goal?]))
  | ret value line => links_commented (links_returnStatement value line)
  | block body => links_emitBlock loop body

theorem links_emitBlock (loop : Option String) : (body : List Stmt) →
    Links known (Exits known loop) (labelNames body) (blockJumps body) (emitBlock loop body)
  | [] => links_pure (by simp)
  | stmt :: rest => by
    intro r p code q hr hp h
    simp only [emitBlock, gives_bind, gives_pure] at h
    obtain ⟨first, p₁, hfirst, second, p₂, hsecond, rfl, rfl⟩ := h
    have hfirst := stmt.links_emit loop hr hp hfirst
    have hsecond := links_emitBlock loop rest hr (hp.leads hfirst.leads) hsecond
    simpa [labelNames, blockLabels, blockJumps] using hfirst.append hsecond

end

theorem nodup_of_repeatedLabel? {seen : List String} {found : List LabelAt}
    (h : repeatedLabel? seen found = none) :
    (found.map LabelAt.name).Nodup ∧ ∀ l ∈ found, l.name ∉ seen := by
  fun_induction repeatedLabel? seen found with
  | case1 => simp
  | case2 => simp at h
  | case3 seen l rest hl ih =>
    obtain ⟨hnodup, hrest⟩ := ih h
    simp only [List.mem_cons, not_or] at hrest
    refine ⟨?_, ?_⟩
    · rw [List.map_cons, List.nodup_cons]
      refine ⟨fun hmem => ?_, hnodup⟩
      obtain ⟨x, hx, heq⟩ := List.mem_map.mp hmem
      exact (hrest x hx).1 heq
    · rintro x (_ | ⟨_, hx⟩)
      · exact hl
      · exact (hrest x hx).2

theorem nodup_labelNames {body : List Stmt} (h : labelFault? body = none) :
    (labelNames body).Nodup := by
  unfold labelFault? at h
  split at h
  · simp at h
  · next hrepeated => exact (nodup_of_repeatedLabel? hrepeated).1

end Stmt

/-! ## Units -/

/-- Code whose jumps all lead to labels in it. -/
def Code.Closed (code : Code) : Prop :=
  ∀ instr ∈ code, ∀ goal ∈ instr.goal?, goal ∈ code

namespace Emit.Delivers

variable {E : Instr → Prop} {own : List String} {n : Nat} {s t : Session} {code : Code}

theorem close (h : Delivers E own n s code t) (hE : ∀ goal, E goal → ∃ name ∈ own, goal = .label name) :
    Delivers (fun _ => False) own n s code t := by
  refine ⟨h.leads, h.jumps, h.functions, ⟨fun instr hinstr goal hgoal => .inl ?_, h.linked.sets,
    h.linked.labels⟩, h.called⟩
  rcases h.linked.closed instr hinstr goal hgoal with hmem | hexit
  · exact hmem
  · obtain ⟨name, hname, rfl⟩ := hE goal hexit
    exact h.linked.sets name hname

theorem closed (h : Delivers (fun _ => False) own n s code t) : code.Closed :=
  fun instr hinstr goal hgoal => (h.linked.closed instr hinstr goal hgoal).resolve_right id

end Emit.Delivers

namespace Session

open Emit

variable {s t : Session}

theorem delivers_emitUnit {function : Option Function} {sourceLines : List String} {body : List Stmt}
    {code : Code} (hs : s.Fit)
    (h : result (emitUnit function sourceLines body) s = (.ok code, t)) :
    Delivers (fun _ => False) (Stmt.labelNames body) (Stmt.blockJumps body) s code t ∧
      (Stmt.labelNames body).Nodup := by
  unfold emitUnit at h
  split at h
  · simp at h
  next hfault =>
  rw [result_runEmit] at h
  obtain ⟨hcode, rfl⟩ := Prod.mk.inj h
  let r : Routine := { function, sourceLines, labels := Stmt.labelNames body }
  have hbody := Stmt.links_emitBlock none body (r := r) (p := { session := s }) rfl hs
    (Prod.ext hcode rfl)
  refine ⟨hbody.close fun goal hgoal => ?_, Stmt.nodup_labelNames hfault⟩
  rcases hgoal with hgoal | ⟨id, hid, -⟩
  · exact hgoal
  · simp at hid

end Session

/-- The labels that a function has from the source: where it starts, and those in its blocks. -/
def Function.labelNames (f : Function) : List String :=
  Assembly.entry f.name :: Stmt.labelNames f.body

namespace Session

open Emit

variable {s t : Session} {sourceLines : List String}

theorem delivers_compileFunction {f : Function} {compiled : String × Code} (hs : s.Fit)
    (h : result (compileFunction sourceLines f) s = (.ok compiled, t)) :
    compiled.1 = f.name ∧ (Stmt.labelNames f.body).Nodup ∧
      Delivers (fun _ => False) f.labelNames (Stmt.blockJumps f.body) s
        (Assembly.functionCode compiled) t := by
  simp only [compileFunction, result_bind_eq_ok, result_pure, Prod.mk.injEq, Except.ok.injEq] at h
  obtain ⟨code, t, hcode, rfl, rfl⟩ := h
  obtain ⟨hbody, hnodup⟩ := delivers_emitUnit hs hcode
  refine ⟨rfl, hnodup, ?_⟩
  have hentry := Delivers.label (E := fun _ => False) (Assembly.entry f.name) s
  have hret : Delivers (fun _ => False) (Stmt.labelNames f.body) (Stmt.blockJumps f.body) s
      (returning code) t := by
    unfold returning
    split
    · exact hbody
    · have hret : Delivers (fun _ => False) [] 0 t [.ret] t :=
        .of_exits (by simp [Instr.labelName?, Instr.callee?, Instr.goal?])
      simpa using hbody.append hret
  simpa [Function.labelNames, Assembly.functionCode] using hentry.append hret

def functionJumps : List Function → Nat
  | [] => 0
  | f :: rest => Stmt.blockJumps f.body + functionJumps rest

theorem delivers_functions {functions : List Function} {compiled : List (String × Code)}
    (hs : s.Fit)
    (h : result (functions.mapM (compileFunction sourceLines)) s = (.ok compiled, t)) :
    compiled.map Prod.fst = functions.map Function.name ∧
      (∀ f ∈ functions, (Stmt.labelNames f.body).Nodup) ∧
      (∀ f ∈ compiled, (Assembly.functionCode f).Closed) ∧
      Delivers (fun _ => False) (functions.flatMap Function.labelNames) (functionJumps functions) s
        (compiled.flatMap Assembly.functionCode) t := by
  induction functions generalizing s compiled with
  | nil =>
    simp only [List.mapM_nil, result_pure, Prod.mk.injEq, Except.ok.injEq] at h
    obtain ⟨rfl, rfl⟩ := h
    exact ⟨rfl, by simp, by simp, .nil⟩
  | cons f rest ih =>
    simp only [List.mapM_cons, result_bind_eq_ok, result_pure, Prod.mk.injEq, Except.ok.injEq] at h
    obtain ⟨first, s₁, hfirst, others, _, hrest, rfl, rfl⟩ := h
    obtain ⟨hname, hnodup, hfirst⟩ := delivers_compileFunction hs hfirst
    obtain ⟨hnames, hnodups, hclosed, hrest⟩ := ih (hs.leads hfirst.leads) hrest
    refine ⟨by simp [hname, hnames], List.forall_mem_cons.mpr ⟨hnodup, hnodups⟩,
      List.forall_mem_cons.mpr ⟨hfirst.closed, hclosed⟩, ?_⟩
    simpa [functionJumps] using hfirst.append hrest

end Session

/-! ## Programs -/

namespace Session

variable {s t : Session}

/-- Functions that can be called are added one by one, under different names. -/
structure Signs (s : Session) (names : List String) (t : Session) : Prop where
  jumps : t.jumps = s.jumps
  functions : t.functions.map Signature.name = s.functions.map Signature.name ++ names
  nodup : (s.functions.map Signature.name).Nodup → (t.functions.map Signature.name).Nodup

theorem Signs.trans {names names' : List String} {u : Session} (h : s.Signs names t)
    (h' : t.Signs names' u) : s.Signs (names ++ names') u where
  jumps := h'.jumps.trans h.jumps
  functions := by rw [h'.functions, h.functions, List.append_assoc]
  nodup hs := h'.nodup (h.nodup hs)

theorem signs_of_keeps {α : Type} {m : SessionM α} {a : α}
    (hm : ∀ {P : Session → Prop}, (∀ (s : Session) slots catalog, P s →
      P { s with table := (s.table.append slots).1, catalog }) → Keeps P m fun _ => True)
    (h : result m s = (.ok a, t)) : s.Signs [] t := by
  have hkeeps := (hm (P := fun u => u.jumps = s.jumps ∧ u.functions = s.functions)
    (fun _ _ _ hu => hu) s ⟨rfl, rfl⟩).1
  rw [h] at hkeeps
  obtain ⟨hjumps, hfunctions⟩ := hkeeps
  exact ⟨hjumps, by rw [hfunctions, List.append_nil], by rw [hfunctions]; exact id⟩

theorem signs_defineFunction {f : Function} (h : result (defineFunction f) s = (.ok (), t)) :
    s.Signs [f.name] t := by
  unfold defineFunction at h
  simp only [result_bind, result_get] at h
  split at h
  · simp at h
  next hnew =>
  have hfresh : f.name ∉ s.functions.map Signature.name := by
    simpa [signature?] using hnew
  have hrest {arguments : List Slot} {u : Session} (hu : s.Signs [] u)
      (h : result (do
        modify fun s => { s with functions := s.functions ++ [signatureOf f arguments] }
        defineAll (.function f.name) f.body) u = (.ok (), t)) : s.Signs [f.name] t := by
    simp only [result_bind, result_modify] at h
    have hfunctions := hu.functions
    rw [List.append_nil] at hfunctions
    have hsign : u.Signs [f.name] { u with functions := u.functions ++ [signatureOf f arguments] } := by
      refine ⟨rfl, by simp [signatureOf], fun hnodup => ?_⟩
      rw [List.map_append, List.nodup_append, hfunctions]
      refine ⟨hfunctions ▸ hnodup, by simp, ?_⟩
      rintro name hname _ hmem rfl
      obtain rfl : name = f.name := by simpa [signatureOf] using hmem
      exact hfresh hname
    exact (hu.trans hsign).trans (signs_of_keeps (fun hP => keeps_beside_defineAll hP _ _) h)
  split at h
  · exact hrest ⟨rfl, by simp, id⟩ (by simpa using h)
  · obtain ⟨arguments, u, hdeclare, h⟩ := result_bind_eq_ok.mp h
    exact hrest (signs_of_keeps (fun hP => keeps_beside_declare hP _ _) hdeclare) h

theorem signs_functions {functions : List Function}
    (h : result (functions.forM defineFunction) s = (.ok (), t)) :
    s.Signs (functions.map Function.name) t := by
  induction functions generalizing s with
  | nil =>
    obtain ⟨-, rfl⟩ := Prod.mk.inj h
    exact ⟨rfl, by simp, id⟩
  | cons f rest ih =>
    rw [List.forM_eq_forM, List.forM_cons, result_bind_eq_ok] at h
    obtain ⟨_, u, hfirst, hrest⟩ := h
    exact (signs_defineFunction hfirst).trans (ih hrest)

theorem signs_build {program : Program} (h : result (build program) s = (.ok (), t)) :
    s.Signs (program.functions.map Function.name) t := by
  obtain ⟨_, u, hmain, hfunctions⟩ := result_bind_eq_ok.mp h
  exact (signs_of_keeps (fun hP => keeps_beside_defineAll hP _ _) hmain).trans
    (signs_functions hfunctions)

end Session

namespace Compilation

open Emit

variable {program : Program} {c : Compiled}

theorem signs (r : Compilation program c) :
    r.built.jumps = 0 ∧
      r.built.functions.map Signature.name = program.functions.map Function.name ∧
      (program.functions.map Function.name).Nodup := by
  have hstart : r.start.jumps = 0 ∧ r.start.functions = [] := by
    rw [(Session.start_eq_ok r.start_eq).2]
    exact ⟨rfl, rfl⟩
  obtain ⟨hjumps, hfunctions, hnodup⟩ := Session.signs_build r.build_eq
  rw [hstart.2, List.map_nil, List.nil_append] at hfunctions
  rw [hstart.2, hfunctions] at hnodup
  exact ⟨hjumps.trans hstart.1, hfunctions, hnodup (by simp)⟩

theorem fit_built (r : Compilation program c) : r.built.Fit :=
  ((Session.Reached.start r.start_eq).build r.build_eq).fit

theorem delivers_main (r : Compilation program c) :
    Delivers (fun _ => False) (Stmt.labelNames program.main) (Stmt.blockJumps program.main) r.built
      c.assembly.main r.emitted ∧ (Stmt.labelNames program.main).Nodup := by
  obtain ⟨hmain, hnodup⟩ := Session.delivers_emitUnit r.fit_built r.main_eq
  have hfinish : Delivers (fun _ => False) [] 0 r.emitted [.finish] r.emitted :=
    .of_exits (by simp [Instr.labelName?, Instr.callee?, Instr.goal?])
  rw [r.code_eq]
  exact ⟨by simpa using hmain.append hfinish, hnodup⟩

theorem delivers_functions (r : Compilation program c) :
    c.assembly.functions.map Prod.fst = program.functions.map Function.name ∧
      (∀ f ∈ program.functions, (Stmt.labelNames f.body).Nodup) ∧
      (∀ f ∈ c.assembly.functions, (Assembly.functionCode f).Closed) ∧
      Delivers (fun _ => False) (program.functions.flatMap Function.labelNames)
        (Session.functionJumps program.functions) r.emitted
        (c.assembly.functions.flatMap Assembly.functionCode) r.final :=
  Session.delivers_functions (r.fit_built.leads r.delivers_main.1.leads) r.functions_eq

end Compilation

theorem Session.mem_header {s : Session} {instr : Instr} (h : instr ∈ s.header) :
    (∃ name, instr = .declare name) ∨ ∃ name hex, instr = .const (.setImmediate name hex) := by
  obtain ⟨slot, -, hline⟩ := List.mem_flatMap.mp h
  unfold declareLines at hline
  grind

/-- The codes of which all jumps are made: the main code and each function. -/
def Assembly.units (a : Assembly) : List Code :=
  a.main :: a.functions.map functionCode

/-- Every jump in the main code or in a function goes to a label of the same unit, and every call
goes to a function that is part of the assembly. -/
theorem units_closed_and_calls_resolved {options : Options} {program : Program} {c : Compiled}
    (h : compile options program = .ok c) :
    (∀ unit ∈ c.assembly.units, unit.Closed) ∧
      ∀ instr ∈ c.assembly.code, ∀ callee ∈ instr.callee?,
        ∃ f ∈ c.assembly.functions, callee = Assembly.entry f.1 := by
  obtain ⟨r⟩ := exists_compilation h
  have hmain := r.delivers_main.1
  obtain ⟨hnames, -, hclosed, hfunctions⟩ := r.delivers_functions
  -- what can be called are the functions of the program, and each of them is in the assembly
  have hsigned {s : Signature} (hs : s ∈ r.built.functions) :
      ∃ f ∈ c.assembly.functions, Assembly.entry s.name = Assembly.entry f.1 := by
    have hmem : s.name ∈ c.assembly.functions.map Prod.fst := by
      rw [hnames, ← r.signs.2.1]
      exact List.mem_map_of_mem hs
    obtain ⟨f, hf, heq⟩ := List.mem_map.mp hmem
    exact ⟨f, hf, by rw [heq]⟩
  refine ⟨?_, fun instr hinstr callee hcallee => ?_⟩
  · rw [Assembly.units, List.forall_mem_cons, List.forall_mem_map]
    exact ⟨hmain.closed, hclosed⟩
  · rw [Assembly.code, List.mem_append, List.mem_append] at hinstr
    rcases hinstr with (hinstr | hinstr) | hinstr
    · rw [r.header_eq] at hinstr
      rcases Session.mem_header hinstr with ⟨name, rfl⟩ | ⟨name, hex, rfl⟩ <;>
        simp [Instr.callee?, Instr.setImmediate] at hcallee
    · obtain ⟨s, hs, rfl⟩ := hmain.called instr hinstr callee hcallee
      exact hsigned hs
    · obtain ⟨s, hs, rfl⟩ := hfunctions.called instr hinstr callee hcallee
      exact hsigned (hmain.functions ▸ hs)

/-- A loop that calls a function and is left by `break`, inside a loop made with `goto`. -/
def jumpingProgram : Program where
  main := [
    .declaration [.keyword "long" 1, .ident "a" 1],
    .label "again" 2,
    .whileLoop (.logical .and (.var "a" 3) (.compare .lt (.var "a" 3) (.long 9 3) 3) 3)
      [.expression (.call "f" [] 4), .breakLoop 5] 3,
    .goto "again" 6]
  functions := [{ name := "f", returnType := .void, line := 7 }]

theorem jumpingProgram_closed :
    ∃ c, compile {} jumpingProgram = .ok c ∧ .label "again" ∈ c.assembly.main ∧
      .label "__loop1_break" ∈ c.assembly.main ∧
      ∃ f ∈ c.assembly.functions, "__fn_f" = Assembly.entry f.1 := by
  have hcompiled : ((compile {} jumpingProgram).toOption.any fun c =>
      .jump "again" ∈ c.assembly.main ∧ .jump "__loop1_break" ∈ c.assembly.main ∧
        .call "__fn_f" ∈ c.assembly.main) = true := by
    decide +kernel
  obtain ⟨c, hc, hcompiled⟩ := (Option.any_eq_true _ _).mp hcompiled
  obtain ⟨hagain, hbreak, hcall⟩ := of_decide_eq_true hcompiled
  have hc := eq_ok_of_toOption hc
  obtain ⟨hclosed, hcalls⟩ := units_closed_and_calls_resolved hc
  have hmain := hclosed c.assembly.main (by simp [Assembly.units])
  exact ⟨c, hc, hmain _ hagain _ rfl, hmain _ hbreak _ rfl,
    hcalls (.call "__fn_f") (by simp [Assembly.code, hcall]) _ rfl⟩

/-! ## Labels of the whole program -/

namespace Label

theorem entry_injective : Function.Injective Assembly.entry := by
  intro name name' h
  simpa [Assembly.entry, toString] using h

theorem entry_not_mem_family (name id : String) : Assembly.entry name ∉ family id := by
  simp [family, Assembly.entry, toString, String.ext_iff]

end Label

/-- How many numbers for labels a program takes. -/
def Program.jumps (program : Program) : Nat :=
  Stmt.blockJumps program.main + Session.functionJumps program.functions

/-- The labels that the source has, unit by unit. -/
def Program.labelNames (program : Program) : List (List String) :=
  Stmt.labelNames program.main :: program.functions.map fun f => Stmt.labelNames f.body

/-- The labels at which the functions start. -/
def Program.entries (program : Program) : List String :=
  program.functions.map fun f => Assembly.entry f.name

namespace Program

variable {program : Program} {c : Compiled}

/-- All labels of an assembly: those of the source, those of the functions, and those made from the
numbers that the program takes. -/
theorem exists_made (r : Compilation program c) :
    ∃ made : List String,
      c.assembly.code.labelNames.Perm (program.labelNames.flatten ++ (program.entries ++ made)) ∧
      Code.Numbered 0 program.jumps (made.map Instr.label) := by
  obtain ⟨made, hperm, hmade⟩ := r.delivers_main.1.linked.labels
  obtain ⟨made', hperm', hmade'⟩ := r.delivers_functions.2.2.2.linked.labels
  rw [r.signs.1] at hmade
  rw [r.delivers_main.1.jumps, r.signs.1] at hmade'
  refine ⟨made ++ made', ?_, by rw [List.map_append]; exact hmade.append hmade'⟩
  have hheader : c.assembly.header.labelNames = [] := by
    refine List.filterMap_eq_nil_iff.mpr fun instr hinstr => ?_
    rw [r.header_eq] at hinstr
    rcases Session.mem_header hinstr with ⟨name, rfl⟩ | ⟨name, hex, rfl⟩ <;> rfl
  have hsplit : (program.functions.flatMap Function.labelNames).Perm
      (program.entries ++ (program.functions.map fun f => Stmt.labelNames f.body).flatten) :=
    (List.map_append_flatMap_perm program.functions (fun f => Assembly.entry f.name)
      fun f => Stmt.labelNames f.body).symm
  rw [Assembly.code, Code.labelNames_append, Code.labelNames_append, hheader, List.nil_append]
  refine (hperm.append (hperm'.trans (hsplit.append_right made'))).trans ?_
  rw [List.perm_iff_count]
  intro name
  simp only [labelNames, List.flatten_cons, List.count_append]
  omega

theorem nodup_entries (r : Compilation program c) : program.entries.Nodup := by
  have h := r.signs.2.2.map Label.entry_injective
  rwa [List.map_map] at h

end Program

/-- In a program that takes less numbers for labels than there are, the labels of functions and the
generated labels all differ. So labels repeat only where two units of the source have a label of the
same name, or a label of the source is written like one of the others. -/
theorem labels_nodup_iff {options : Options} {program : Program} {c : Compiled}
    (h : compile options program = .ok c) (hjumps : program.jumps < UInt32.size) :
    ∃ made : List String,
      c.assembly.code.labelNames.Perm (program.labelNames.flatten ++ (program.entries ++ made)) ∧
      (∀ name ∈ made, ∃ i, 0 < i ∧ i ≤ program.jumps ∧
        name ∈ Label.family (Numeral.base36 (UInt32.ofNat i))) ∧
      (program.entries ++ made).Nodup ∧
      (∀ names ∈ program.labelNames, names.Nodup) ∧
      (c.assembly.code.labelNames.Nodup ↔
        program.labelNames.Pairwise List.Disjoint ∧
          ∀ names ∈ program.labelNames, names.Disjoint (program.entries ++ made)) := by
  obtain ⟨r⟩ := exists_compilation h
  obtain ⟨made, hperm, hmade⟩ := Program.exists_made r
  have hown : ∀ name ∈ made, ∃ i, 0 < i ∧ i ≤ program.jumps ∧
      name ∈ Label.family (Numeral.base36 (UInt32.ofNat i)) := by
    intro name hname
    simpa using hmade.own name (by rwa [Code.labels_map_label])
  have hgenerated : (program.entries ++ made).Nodup := by
    rw [List.nodup_append]
    refine ⟨Program.nodup_entries r, by simpa using hmade.nodup hjumps, ?_⟩
    rintro name hname _ hmem rfl
    obtain ⟨f, -, rfl⟩ := List.mem_map.mp hname
    obtain ⟨i, -, -, hfamily⟩ := hown _ hmem
    exact Label.entry_not_mem_family f.name _ hfamily
  have hunits : ∀ names ∈ program.labelNames, names.Nodup := by
    rw [Program.labelNames, List.forall_mem_cons, List.forall_mem_map]
    exact ⟨r.delivers_main.2, r.delivers_functions.2.1⟩
  refine ⟨made, hperm, hown, hgenerated, hunits, ?_⟩
  rw [hperm.nodup_iff, List.nodup_append', List.nodup_flatten]
  have hdisjoint : program.labelNames.flatten.Disjoint (program.entries ++ made) ↔
      ∀ names ∈ program.labelNames, names.Disjoint (program.entries ++ made) := by
    constructor
    · intro h names hnames name hname
      exact h (List.mem_flatten.mpr ⟨names, hnames, hname⟩)
    · intro h name hname
      obtain ⟨names, hnames, hname⟩ := List.mem_flatten.mp hname
      exact h names hnames hname
  constructor
  · rintro ⟨⟨-, hpairwise⟩, -, h⟩
    exact ⟨hpairwise, hdisjoint.mp h⟩
  · rintro ⟨hpairwise, h⟩
    exact ⟨⟨hunits, hpairwise⟩, hgenerated, hdisjoint.mpr h⟩

/-- The main code and a function have a label of the same name. -/
def sharedLabel : Program where
  main := [.label "again" 1, .goto "again" 2]
  functions := [
    { name := "f", returnType := .void, line := 3, body := [.label "again" 4, .goto "again" 5] }]

/-- Labels are checked in each unit alone, so this program has the label twice. -/
theorem sharedLabel_repeats :
    ∃ c, compile {} sharedLabel = .ok c ∧ sharedLabel.jumps < UInt32.size ∧
      sharedLabel.labelNames = [["again"], ["again"]] ∧ ¬ c.assembly.code.labelNames.Nodup := by
  have hcompiled : ((compile {} sharedLabel).toOption.any fun _ => true) = true := by
    decide +kernel
  obtain ⟨c, hc, -⟩ := (Option.any_eq_true _ _).mp hcompiled
  have hc := eq_ok_of_toOption hc
  have hjumps : sharedLabel.jumps < UInt32.size := by decide
  have hlabels : sharedLabel.labelNames = [["again"], ["again"]] := rfl
  obtain ⟨made, -, -, -, -, hiff⟩ := labels_nodup_iff hc hjumps
  refine ⟨c, hc, hjumps, hlabels, fun hnodup => ?_⟩
  have hdisjoint := (hiff.mp hnodup).1
  simp [hlabels] at hdisjoint

end Flatword
