import Mathlib.Logic.Relation
import Flatword.Proofs.Run

/-!
# What lowering does to its scope

Every lowering step changes its scope by a few moves only, whether it succeeds or fails. They are
listed once, in `Scope.Move`; what holds of all moves holds of all lowering. `Orderly` is found by
instance search along the definition of a step, so that a new step needs one line.
-/

namespace Flatword

/-- Whether the target of an assignment may serve as first scratch place. -/
def Slot.Reservable (plain : Bool) (target : Slot) : Prop :=
  plain ∧ target.offset = none ∧
    (target.kind = .long ∨ target.kind = .fixed ∨ target.kind = .structRef) ∧
    isRegisterName target.asmName = false

instance (plain : Bool) (target : Slot) : Decidable (target.Reservable plain) := by
  unfold Slot.Reservable
  infer_instance

/-- One change that lowering makes to a scope. -/
inductive Scope.Move : Scope → Scope → Prop
  | handOut {s target} (h : s.reuse = .reserved target) :
      Move s { s with reuse := .taken target }
  | take {s slot pool} (h : s.pool.allocate? = some (slot, pool)) :
      Move s { s with pool }
  | release (s : Scope) (address : Option Nat) :
      Move s { s with pool := s.pool.release address }
  | reserve {s target} (h : s.reuse = .allowed) (ht : target.Reservable true) :
      Move s { s with reuse := .reserved target }
  | allow (s : Scope) : Move s { s with reuse := s.reuse.allow }
  | forbid (s : Scope) : Move s { s with reuse := s.reuse.forbid }
  | number (s : Scope) : Move s { s with session := s.session.newJump.2 }
  | post (s : Scope) (code : Code) : Move s { s with post := s.post ++ code }
  | warn (s : Scope) (journal : Journal) :
      Move s { s with session := { s.session with journal } }
  | mark (s : Scope) (asmName : String) :
      Move s { s with session := { s.session with table := s.session.table.markSet asmName } }

/-- Any number of moves. -/
def Scope.Leads : Scope → Scope → Prop :=
  Relation.ReflTransGen Scope.Move

namespace Scope.Leads

variable {s t : Scope}

theorem refl (s : Scope) : s.Leads s :=
  Relation.ReflTransGen.refl

theorem trans {s t u : Scope} (h : s.Leads t) (h' : t.Leads u) : s.Leads u :=
  Relation.ReflTransGen.trans h h'

theorem move (h : s.Move t) : s.Leads t :=
  Relation.ReflTransGen.single h

theorem invariant {β : Sort*} {g : Scope → β} (hg : ∀ {s t : Scope}, s.Move t → g t = g s)
    (h : s.Leads t) : g t = g s := by
  induction h with
  | refl => rfl
  | tail _ hmove ih => rw [hg hmove, ih]

theorem preserves {P : Scope → Prop} (hP : ∀ {s t : Scope}, s.Move t → P s → P t) (h : s.Leads t)
    (hs : P s) : P t := by
  induction h with
  | refl => exact hs
  | tail _ hmove ih => exact hP hmove ih

end Scope.Leads

def Scope.unreserved (s : Scope) : Scope :=
  { s with reuse := .forbidden }

theorem Scope.Leads.not_taken {s t : Scope} (h : s.Leads t) (ht : t.reuse.taken? = none) :
    s.reuse.taken? = none := by
  have hmove {s t : Scope} (h : s.Move t) (ht : t.reuse.taken? = none) : s.reuse.taken? = none := by
    cases h with
    | handOut h => simp [Reuse.taken?] at ht
    | reserve h => rw [h]; rfl
    | allow | forbid =>
      revert ht
      cases s.reuse <;> simp [Reuse.taken?, Reuse.allow, Reuse.forbid]
    | _ => exact ht
  induction h with
  | refl => exact ht
  | tail _ h ih => exact ih (hmove h ht)

/-! ## Marks, warnings and options -/

/-- A session after a slot has been looked up. -/
def Session.noted (s : Session) (f : Frame) (x : Slot) : Session :=
  if x.isSet then s
  else { s with
    journal := if !f.leftSide && x.content.isNone then
        Journal.add s.journal (.atLine f.line) s!"Variable '{x.name}' is used but not initialized."
      else s.journal
    table := s.table.markSet x.asmName }

inductive Session.Mark : Session → Session → Prop
  | lookup {s} (f : Frame) {slot} (h : slot ∈ s.table.slots) : Mark s (s.noted f slot)
  | record (s : Session) (asmName hex : String) :
      Mark s { s with table := s.table.setContent asmName hex }
  | declared (s : Session) (asmName : String) :
      Mark s { s with table := s.table.markDeclared asmName }
  | aside {s t} (htable : t.table = s.table) (hjournal : t.journal = s.journal) : Mark s t

def Session.Marks : Session → Session → Prop :=
  Relation.ReflTransGen Session.Mark

@[reducible]
def Instr.isComment : Instr → Bool
  | .comment _ => true
  | _ => false

/-- Slots have been noted, and code without comments has been left for after the statement. -/
structure Scope.Proceeds (s t : Scope) : Prop where
  notes : s.session.Marks t.session
  queue : ∃ added : Code, t.post = s.post ++ added ∧ ∀ instr ∈ added, instr.isComment = false

namespace Scope.Proceeds

theorem of_eq {s t : Scope} (htable : t.session.table = s.session.table)
    (hjournal : t.session.journal = s.session.journal) (hpost : t.post = s.post) : s.Proceeds t :=
  ⟨.single (.aside htable hjournal), [], by simpa using hpost, by simp⟩

theorem trans {s t u : Scope} (h : s.Proceeds t) (h' : t.Proceeds u) : s.Proceeds u := by
  obtain ⟨added, ht, hadded⟩ := h.queue
  obtain ⟨added', hu, hadded'⟩ := h'.queue
  refine ⟨Relation.ReflTransGen.trans h.notes h'.notes, added ++ added', ?_, ?_⟩
  · rw [hu, ht, List.append_assoc]
  · exact List.forall_mem_append.mpr ⟨hadded, hadded'⟩

end Scope.Proceeds

def Session.withOptions (s : Session) (options : Options) : Session :=
  { s with options }

def Scope.withOptions (s : Scope) (options : Options) : Scope :=
  { s with session := s.session.withOptions options }

/-- The cause that says that a statement has not given all registers back. -/
@[reducible]
def Cause.isLeak : Cause → Bool
  | .registersInUse _ => true
  | _ => false

/-- Two truth values that unfold to the same one, for instance search. -/
class SameBool (a b : Bool) : Prop where
  eq : a = b

instance {a : Bool} : SameBool a a := ⟨rfl⟩

namespace Lower

variable {indexes : List (Lower Lowered)} {path : List Step} {α β : Type}

/-- A step that changes its scope by moves, and that never fails because of registers in use. As long
as no target is handed out, it does not matter whether one could be, and the options never matter. -/
class Orderly (m : Lower α) : Prop where
  leads : ∀ (f : Frame) (s : Scope), s.Leads (outcome m f s).2
  cause : ∀ (f : Frame) (s : Scope) (e : Failure), (outcome m f s).1 = .error e → e.cause.isLeak = false
  unreserved : ∀ (f : Frame) (s : Scope), (outcome m f s).2.reuse.taken? = none →
    outcome m f s.unreserved = ((outcome m f s).1, (outcome m f s).2.unreserved)
  proceeds : ∀ (f : Frame) (s : Scope), s.Proceeds (outcome m f s).2
  options : ∀ (f : Frame) (s : Scope) (o : Options),
    outcome m f (s.withOptions o) = ((outcome m f s).1, (outcome m f s).2.withOptions o)

theorem leads_of_gives {m : Lower α} [Orderly m] {f : Frame} {s t : Scope} {a : α}
    (h : Gives m f s a t) : s.Leads t := by
  have hm := Orderly.leads (m := m) f s
  rwa [show (outcome m f s).2 = t from congrArg Prod.snd h] at hm

/-! ## Composition -/

instance (a : α) : Orderly (pure a : Lower α) where
  leads _ s := .refl s
  cause _ _ _ h := nomatch h
  unreserved _ _ _ := rfl
  proceeds _ _ := .of_eq rfl rfl rfl
  options _ _ _ := rfl

theorem orderly_bind {m : Lower α} {k : α → Lower β} [Orderly m] (hk : ∀ a, Orderly (k a)) :
    Orderly (m >>= k) where
  leads f s := by
    have hm := Orderly.leads (m := m) f s
    rw [outcome_bind]
    rcases h : outcome m f s with ⟨_ | a, u⟩ <;> rw [h] at hm
    · exact hm
    · exact hm.trans (Orderly.leads f u)
  cause f s e := by
    have hm := Orderly.cause (m := m) f s
    rw [outcome_bind]
    rcases h : outcome m f s with ⟨_ | a, u⟩ <;> rw [h] at hm
    · exact fun he => hm e (by simpa using he)
    · exact Orderly.cause f u e
  unreserved f s ht := by
    have hm := Orderly.unreserved (m := m) f s
    rw [outcome_bind] at ht
    rw [outcome_bind, outcome_bind]
    rcases h : outcome m f s with ⟨_ | a, u⟩ <;> rw [h] at ht hm
    · rw [hm ht]
    · rw [hm ((Orderly.leads f u).not_taken ht)]
      exact Orderly.unreserved f u ht
  proceeds f s := by
    have hm := Orderly.proceeds (m := m) f s
    rw [outcome_bind]
    rcases h : outcome m f s with ⟨_ | a, u⟩ <;> rw [h] at hm
    · exact hm
    · exact hm.trans (Orderly.proceeds f u)
  options f s o := by
    rw [outcome_bind, outcome_bind, Orderly.options]
    rcases outcome m f s with ⟨_ | a, u⟩
    · rfl
    · exact Orderly.options f u o

instance (m : Lower α) (k : α → Lower β) [Orderly m] [hk : ∀ a, Orderly (k a)] :
    Orderly (m >>= k) :=
  orderly_bind hk

instance (c : Prop) [Decidable c] (m m' : Lower α) [Orderly m] [Orderly m'] :
    Orderly (if c then m else m') := by
  split <;> infer_instance

instance (cause : Cause) [h : SameBool cause.isLeak false] :
    Orderly (fail cause : Lower α) where
  leads _ s := .refl s
  cause _ _ e he := by
    obtain rfl : _ = e := Except.error.inj he
    exact h.eq
  unreserved _ _ _ := rfl
  proceeds _ _ := .of_eq rfl rfl rfl
  options _ _ _ := rfl

instance (o : Option α) (cause : Cause) [SameBool cause.isLeak false] :
    Orderly (orFail o cause) := by
  cases o <;> (unfold orFail; infer_instance)

instance (m : Lower α) (leftSide : Bool) [Orderly m] : Orderly (onSide leftSide m) where
  leads f s := Orderly.leads (m := m) { f with leftSide } s
  cause f s := Orderly.cause (m := m) { f with leftSide } s
  unreserved f s := Orderly.unreserved (m := m) { f with leftSide } s
  proceeds f s := Orderly.proceeds (m := m) { f with leftSide } s
  options f s := Orderly.options (m := m) { f with leftSide } s

/-- A step that looks at its scope, but not at the target that may serve as a scratch place, and not at the
options. -/
theorem orderly_get {k : Scope → Lower β} (hk : ∀ s, Orderly (k s))
    (hsame : ∀ s : Scope, s.reuse.taken? = none → k s.unreserved = k s)
    (hoptions : ∀ (s : Scope) (o : Options), k (s.withOptions o) = k s := by exact fun _ _ => rfl) :
    Orderly (get >>= k) where
  leads f s := (hk s).leads f s
  cause f s := (hk s).cause f s
  unreserved f s ht := by
    have ht : (outcome (k s) f s).2.reuse.taken? = none := ht
    have hs := ((hk s).leads f s).not_taken ht
    calc outcome (get >>= k) f s.unreserved
        = outcome (k s) f s.unreserved := by rw [← hsame s hs]; rfl
      _ = ((outcome (k s) f s).1, (outcome (k s) f s).2.unreserved) := (hk s).unreserved f s ht
  proceeds f s := (hk s).proceeds f s
  options f s o :=
    calc outcome (get >>= k) f (s.withOptions o)
        = outcome (k s) f (s.withOptions o) := by rw [← hoptions s o]; rfl
      _ = ((outcome (k s) f s).1, (outcome (k s) f s).2.withOptions o) := (hk s).options f s o

/-! ## The moves themselves -/

instance : Orderly (read : Lower Frame) where
  leads _ s := .refl s
  cause _ _ _ h := nomatch h
  unreserved _ _ _ := rfl
  proceeds _ _ := .of_eq rfl rfl rfl
  options _ _ _ := rfl

theorem orderly_modify {g : Scope → Scope} (hg : ∀ s, Scope.Move s (g s))
    (hsame : ∀ s, g s.unreserved = (g s).unreserved) (hproceeds : ∀ s, Scope.Proceeds s (g s))
    (hoptions : ∀ s o, g (s.withOptions o) = (g s).withOptions o) :
    Orderly (modify g : Lower PUnit) where
  leads _ s := .move (hg s)
  cause _ _ _ h := nomatch h
  unreserved _ s _ := by simp [hsame]
  proceeds _ s := hproceeds s
  options _ s o := by simp [hoptions]

instance : Orderly allocate where
  leads f s := by
    simp only [allocate, outcome_bind, outcome_get]
    split
    · next h => exact .move (.handOut h)
    · split
      · next h => exact .move (.take h)
      · exact .refl s
  cause f s e := by
    simp only [allocate, outcome_bind, outcome_get]
    split
    · rintro ⟨⟩
    · split
      · rintro ⟨⟩
      · rintro ⟨⟩
        rfl
  unreserved f s ht := by
    simp only [allocate, outcome_bind, outcome_get] at ht ⊢
    rcases hr : s.reuse with _ | _ | target | target <;> simp only [hr] at ht
    case reserved => exact absurd (show some target = none from ht) (by simp)
    all_goals
      simp only [Scope.unreserved]
      rcases s.pool.allocate? with _ | ⟨slot, pool⟩ <;> rfl
  proceeds f s := by
    simp only [allocate, outcome_bind, outcome_get]
    split
    · exact .of_eq rfl rfl rfl
    · split <;> exact .of_eq rfl rfl rfl
  options f s o := by
    obtain ⟨session, pool, reuse, post⟩ := s
    simp only [allocate, outcome_bind, outcome_get, Scope.withOptions]
    cases reuse
    case reserved => rfl
    all_goals rcases pool.allocate? with _ | ⟨slot, pool⟩ <;> rfl

instance (address : Option Nat) : Orderly (Lower.release address) :=
  orderly_modify (fun s => .release s address) (fun _ => rfl) (fun _ => .of_eq rfl rfl rfl)
    fun _ _ => rfl

instance (slot : Slot) : Orderly (releaseOperand slot) := by
  unfold releaseOperand
  rcases slot.offset with _ | _ | _ <;> infer_instance

instance (kept value : Slot) : Orderly (releaseBeside kept value) := by
  unfold releaseBeside
  infer_instance

instance (slot : Slot) : Orderly (isTemp slot) := by
  unfold isTemp
  refine orderly_get (fun _ => inferInstance) fun s hs => ?_
  have hforbidden : s.unreserved.reuse.taken? = none := rfl
  simp only [Scope.isTemp, hs, hforbidden]
  rfl

instance : Orderly forbidReuse :=
  orderly_modify .forbid (fun _ => rfl) (fun _ => .of_eq rfl rfl rfl) fun _ _ => rfl

instance : Orderly newJump where
  leads _ s := .move (.number s)
  cause _ _ _ h := nomatch h
  unreserved _ _ _ := rfl
  proceeds _ _ := .of_eq rfl rfl rfl
  options _ _ _ := rfl

instance (up : Bool) (name : String) : Orderly (pushPost [stepInstr up name]) :=
  orderly_modify (fun s => .post s _) (fun _ => rfl)
    (fun _ => ⟨.refl, _, rfl, by cases up <;> simp [stepInstr]⟩) fun _ _ => rfl

/-! ## Lookups -/

theorem outcome_noteUse (x : Slot) (f : Frame) (s : Scope) :
    outcome (noteUse x) f s = (.ok x, { s with session := s.session.noted f x }) := by
  unfold noteUse Session.noted
  cases x.isSet
  · simp only [Bool.false_eq_true, if_false, outcome_bind, outcome_read]
    split <;> rfl
  · rfl

theorem leads_noted (s : Scope) (f : Frame) (x : Slot) :
    s.Leads { s with session := s.session.noted f x } := by
  unfold Session.noted
  split
  · exact .refl s
  · exact (Scope.Leads.move (.mark s x.asmName)).trans (.move (.warn _ _))

theorem orderly_lookup {m : Lower α} (find : Frame → Table → Option Slot) (give : Slot → α)
    (missing : Frame → Except Failure α)
    (hm : ∀ f s, outcome m f s = match find f s.session.table with
      | some slot => (.ok (give slot), { s with session := s.session.noted f slot })
      | none => (missing f, s))
    (hfind : ∀ f t slot, find f t = some slot → slot ∈ t.slots)
    (hmissing : ∀ f e, missing f = .error e → e.cause.isLeak = false) : Orderly m where
  leads f s := by
    rw [hm]
    split
    · exact leads_noted s f _
    · exact .refl s
  cause f s e := by
    rw [hm]
    split
    · exact fun h => nomatch h
    · exact hmissing f e
  unreserved f s _ := by
    simp only [hm, Scope.unreserved]
    split <;> rfl
  proceeds f s := by
    rw [hm]
    split
    · next h => exact ⟨.single (.lookup f (hfind f _ _ h)), [], by simp, by simp⟩
    · exact .of_eq rfl rfl rfl
  options f s o := by
    simp only [hm, Scope.withOptions, Session.withOptions]
    split
    · next slot _ =>
      unfold Session.noted
      split <;> rfl
    · rfl

theorem mem_of_findNamed? {t : Table} {function : Option String} {name : String} {slot : Slot}
    (h : (function.bind (t.findNamed? name)).or (t.findNamed? name "") = some slot) : slot ∈ t.slots := by
  rcases Option.or_eq_some_iff.mp h with hlocal | ⟨-, hglobal⟩
  · obtain ⟨function, -, hlocal⟩ := Option.bind_eq_some_iff.mp hlocal
    exact List.mem_of_find?_eq_some hlocal
  · exact List.mem_of_find?_eq_some hglobal

instance (name : String) : Orderly (lookup name) := by
  refine orderly_lookup
    (fun f t => (f.function.bind (t.findNamed? name)).or (t.findNamed? name "")) id
    (fun f => .error (.atLine f.line (.undeclaredVariable name))) (fun f s => ?_)
    (fun f t slot h => ?_) fun f e h => ?_
  · simp only [lookup, outcome_bind, outcome_get, outcome_read]
    split <;> simp [*, outcome_noteUse]
  · exact mem_of_findNamed? h
  · obtain rfl := Except.error.inj h
    rfl

instance (asmName : String) : Orderly (lookupAsm? asmName) := by
  refine orderly_lookup (fun _ t => t.findAsm? asmName) some (fun _ => .ok none) (fun f s => ?_)
    (fun _ _ _ => List.mem_of_find?_eq_some) fun _ _ h => nomatch h
  simp only [lookupAsm?, outcome_bind, outcome_get]
  split
  · simp only [*, outcome_bind, outcome_noteUse, outcome_pure]
  · simp [*]

instance (address : Nat) : Orderly (lookupAt address) := by
  refine orderly_lookup (fun _ t => t.findAt? address) id
    (fun f => .error (.atLine f.line (.nothingAtAddress address))) (fun f s => ?_)
    (fun _ _ _ => List.mem_of_find?_eq_some) fun f e h => ?_
  · simp only [lookupAt, outcome_bind, outcome_get]
    split <;> simp [*, outcome_noteUse]
  · obtain rfl := Except.error.inj h
    rfl

/-! ## Assignments -/

instance (flat : Flat) : Orderly flat.release := by
  unfold Flat.release
  infer_instance

instance (slot : Slot) (words : Int) : Orderly (slotAt slot words) := by
  unfold slotAt
  infer_instance

instance (slot : Slot) : Orderly (resolveConstant slot) := by
  unfold resolveConstant
  split <;> infer_instance

instance (address : Nat) : Orderly (indexName address) := by
  unfold indexName
  infer_instance

section Assign

variable (assign : Slot → Slot → Lower Code) [∀ l r, Orderly (assign l r)]

instance (slot : Slot) : Orderly (intoScratch assign slot) := by
  unfold intoScratch
  infer_instance

instance (slot : Slot) : Orderly (flattenWith assign slot) := by
  rcases hk : slot.kind <;> rcases ho : slot.offset with _ | _ | _ <;>
    simp only [flattenWith, hk, ho]
  case constant.none =>
    refine orderly_get (fun s => ?_) fun _ _ => rfl
    split <;> infer_instance
  all_goals infer_instance

instance (header : Slot) (count i : Nat) (digits : List Char) :
    Orderly (fillCells assign header count i digits) := by
  induction count generalizing i digits with
  | zero => unfold fillCells; infer_instance
  | succ count ih =>
    unfold fillCells
    refine orderly_bind fun cell => ?_
    split <;> infer_instance

instance (header right : Slot) : Orderly (fillArray assign header right) := by
  unfold fillArray
  infer_instance

end Assign

section Flatten

variable (flatten : Slot → Lower Flat) [∀ slot, Orderly (flatten slot)]

instance (left right : Slot) : Orderly (assignConstant left right) := by
  unfold assignConstant
  have (value : Word) : Orderly (α := Code) (do
      match namedConstant? (← get).session.table right with
      | some named => pure [.move left.asmName named.asmName]
      | none => pure [.setImmediate left.asmName (Hex.ofWord value)]) := by
    refine orderly_get (fun s => ?_) fun _ _ => rfl
    split <;> infer_instance
  infer_instance

instance (left right : Slot) : Orderly (assignWord flatten left right) := by
  unfold assignWord
  split <;> infer_instance

instance (left right : Slot) : Orderly (assignCell left right) := by
  unfold assignCell
  split <;> infer_instance

instance (base right : Slot) (index : Nat) : Orderly (assignIndexed flatten base index right) := by
  unfold assignIndexed
  infer_instance

instance (base right : Slot) (words : Int64) :
    Orderly (assignKnown flatten base words right) := by
  unfold assignKnown
  infer_instance

instance (left right : Slot) : Orderly (assignRegular flatten left right) := by
  unfold assignRegular
  split
  · split <;> infer_instance
  · infer_instance
  · infer_instance

end Flatten

instance (assign : Slot → Slot → Lower Code) [∀ l r, Orderly (assign l r)] (left right : Slot) :
    Orderly (assignArray assign left right) := by
  unfold assignArray
  split <;> infer_instance

instance (depth : Nat) (left right : Slot) : Orderly (assignWithin depth left right) := by
  induction depth generalizing left right with
  | zero => unfold assignWithin; infer_instance
  | succ depth ih =>
    unfold assignWithin
    refine orderly_bind fun left => orderly_bind fun right => ?_
    split <;> infer_instance

instance (left right : Slot) : Orderly (assign left right) :=
  orderly_get (fun _ => inferInstance) fun _ _ => rfl

instance (slot : Slot) : Orderly (flatten slot) :=
  orderly_get (fun _ => inferInstance) fun _ _ => rfl

/-! ## Operands -/

instance (slot : Slot) : Orderly (constantWord slot) := by
  unfold constantWord
  infer_instance

instance (slot : Slot) : Orderly (loadInPlace slot) := by
  unfold loadInPlace
  refine orderly_bind fun code => ?_
  dsimp only
  split <;> infer_instance

instance (slot : Slot) : Orderly (copyToScratch slot) := by
  unfold copyToScratch
  infer_instance

instance (slot : Slot) : Orderly (own slot) := by
  unfold own
  infer_instance

instance (op : BinaryOp) (dest value : Slot) : Orderly (update op dest value) := by
  unfold update
  infer_instance

instance (slot : Slot) : Orderly (plainIndex slot) := by
  unfold plainIndex
  infer_instance

instance (slot : Slot) : Orderly (intoBase slot) := by
  unfold intoBase
  infer_instance

/-! ## Paths -/

/-- A step of a path whose index, if it has one, is lowered by moves. -/
class Step.Orderly (step : Step) : Prop where
  index : ∀ {value : Lower Lowered}, step = .index value → Lower.Orderly value

instance (value : Lower Lowered) [h : Orderly value] : (Step.index value).Orderly where
  index := by rintro _ ⟨⟩; exact h

instance (name : String) : (Step.member name).Orderly where
  index := nofun

instance (name : String) : (Step.arrow name).Orderly where
  index := nofun

theorem orderly_of_mem_leadingIndexes (h : ∀ step ∈ path, step.Orderly) :
    ∀ value ∈ leadingIndexes path, Orderly value := by
  fun_induction leadingIndexes path with
  | case1 value rest ih =>
    intro v hv
    rcases List.mem_cons.mp hv with rfl | hv
    · exact (h _ (by simp)).index rfl
    · exact ih (fun step hstep => h step (List.mem_cons_of_mem _ hstep)) v hv
  | case2 => simp

instance (op : BinaryOp) (index : Slot) (word : Word) :
    Orderly (shiftedIndex op index word) := by
  unfold shiftedIndex
  infer_instance

instance (stride : Word) (index : Slot) : Orderly (scaledIndex stride index) := by
  unfold scaledIndex
  infer_instance

instance (distance : Word) (index : Slot) : Orderly (advancedIndex distance index) := by
  unfold advancedIndex
  infer_instance

instance (sum : IndexSum) (stride : Word) (index : Slot) :
    Orderly (sum.addStored stride index) := by
  unfold IndexSum.addStored
  rcases sum.stored with _ | _ <;> infer_instance

instance (sum : IndexSum) (dimension stride : Word) (index : Lower Lowered) [Orderly index] :
    Orderly (sum.addIndex dimension stride index) := by
  unfold IndexSum.addIndex
  infer_instance

theorem orderly_addIndexes (h : ∀ index ∈ indexes, Orderly index) (sum : IndexSum)
    (dimensions strides : List Word) : Orderly (sum.addIndexes dimensions strides indexes) := by
  fun_induction IndexSum.addIndexes sum dimensions strides indexes with
  | case1 sum dimension dimensions stride strides index indexes ih =>
    have := h index (by simp)
    exact orderly_bind fun sum => ih sum fun index hindex => h index (by simp [hindex])
  | case2 => infer_instance

instance (leftSide : Bool) (header : Slot) (item : ArrayItem) (strides : List Word)
    (distance : Word) : Orderly (knownCell leftSide header item strides distance) := by
  unfold knownCell
  infer_instance

instance (header : Slot) (item : ArrayItem) (index : Slot) (distance : Word) :
    Orderly (computedCell header item index distance) := by
  unfold computedCell
  infer_instance

instance (leftSide : Bool) (header : Slot) (item : ArrayItem) (strides : List Word)
    (sum : IndexSum) : Orderly (summedCell leftSide header item strides sum) := by
  unfold summedCell
  split <;> infer_instance

theorem orderly_indexArray (h : ∀ index ∈ indexes, Orderly index) (leftSide : Bool) (header : Slot) :
    Orderly (indexArray leftSide header indexes) := by
  have hsum := orderly_addIndexes h
  exact orderly_get (fun _ => inferInstance) fun _ _ => rfl

instance (slot : Slot) (index : Lower Lowered) [Orderly index] :
    Orderly (indexPointer slot index) := by
  unfold indexPointer
  infer_instance

instance (struct member : String) : Orderly (wordMember struct member) :=
  orderly_get (fun _ => inferInstance) fun _ _ => rfl

instance (cell : Slot) (struct : String) (index : Nat) (member : String) :
    Orderly (memberOfCell cell struct index member) := by
  unfold memberOfCell
  infer_instance

instance (leftSide : Bool) (slot : Slot) (member : String) :
    Orderly (memberOf leftSide slot member) := by
  unfold memberOf
  split <;> infer_instance

instance (slot : Slot) (member : String) : Orderly (arrowMember slot member) := by
  unfold arrowMember
  infer_instance

theorem orderly_followAfter (leftSide : Bool) (skip : Nat) (here : Lowered)
    (h : ∀ step ∈ path, step.Orderly) : Orderly (followAfter leftSide skip here path) := by
  induction path generalizing skip here with
  | nil => cases skip <;> (unfold followAfter; infer_instance)
  | cons step rest ih =>
    have hrest : ∀ step ∈ rest, step.Orderly := fun step hstep => h step (by simp [hstep])
    have hgo := fun skip here => ih skip here hrest
    cases skip with
    | succ skip => exact hgo skip here
    | zero =>
      cases step with
      | index value =>
        have hvalue : Orderly value := (h _ (by simp)).index rfl
        have hindexes : ∀ index ∈ value :: leadingIndexes rest, Orderly index := by
          simpa using ⟨hvalue, orderly_of_mem_leadingIndexes hrest⟩
        have harray := orderly_indexArray hindexes leftSide
        unfold followAfter
        infer_instance
      | member name => unfold followAfter; infer_instance
      | arrow name => unfold followAfter; infer_instance

theorem orderly_lowerLookup (name : String) (h : ∀ step ∈ path, step.Orderly) :
    Orderly (lowerLookup name path) := by
  have hgo := fun leftSide here => orderly_followAfter leftSide 0 here h
  unfold lowerLookup
  infer_instance

/-! ## Conditions -/

instance (value : Lower Lowered) (b : Branch) [Orderly value] : Orderly (branchValue value b) := by
  unfold branchValue
  infer_instance

instance (op : Comparison) (left right : Lower Lowered) (b : Branch) [Orderly left]
    [Orderly right] : Orderly (branchCompare op left right b) := by
  unfold branchCompare
  infer_instance

instance (op : LogicalOp) (left right : Branch → Lower Code) (b : Branch)
    [∀ b, Orderly (left b)] [∀ b, Orderly (right b)] :
    Orderly (branchLogical op left right b) := by
  unfold branchLogical
  refine orderly_bind fun id => ?_
  split <;> infer_instance

instance (condition : Branch → Lower Code) [∀ b, Orderly (condition b)] :
    Orderly (materialize condition) := by
  unfold materialize
  infer_instance

/-! ## Expressions -/

theorem outcome_tryReserve (target : Slot) (f : Frame) (s : Scope) :
    outcome (tryReserve target) f s =
      if s.reuse = .allowed then
        if isRegisterName target.asmName then (.ok false, { s with reuse := .forbidden })
        else (.ok true, { s with reuse := .reserved target })
      else (.ok false, s) := by
  simp only [tryReserve, outcome_bind, outcome_get]
  rcases hr : s.reuse with _ | _ | _ | _
  case allowed => cases isRegisterName target.asmName <;> rfl
  all_goals rfl

theorem outcome_reserveTarget (plain : Bool) (target : Slot) (f : Frame) (s : Scope) :
    outcome (reserveTarget plain target) f s =
      (.ok (), { s with
        reuse := if s.reuse = .allowed ∧ target.Reservable plain then Reuse.reserved target
          else s.reuse.forbid }) := by
  by_cases hp : (plain && target.offset.isNone &&
      decide (target.kind = .long ∨ target.kind = .fixed ∨ target.kind = .structRef)) = true
  · have hiff : target.Reservable plain ↔ isRegisterName target.asmName = false := by
      simp_all [Slot.Reservable]
    simp only [reserveTarget, hp, if_true, outcome_bind, outcome_tryReserve, hiff]
    by_cases hr : s.reuse = .allowed <;> cases isRegisterName target.asmName <;>
      simp [hr, forbidReuse, Reuse.forbid]
  · have hnot : ¬ target.Reservable plain := by
      simp_all [Slot.Reservable]
    simp only [reserveTarget, hp, hnot, and_false, if_false]
    rfl

section Values

variable (left right operand value target : Lower Lowered) [Orderly left] [Orderly right]
  [Orderly operand] [Orderly value] [Orderly target]

instance (up : Bool) (slot : Slot) : Orderly (stepOperand up slot) := by
  unfold stepOperand
  infer_instance

instance (op : BinaryOp) (dest value : Slot) : Orderly (operate op dest value) := by
  unfold operate
  infer_instance

instance (op : BinaryOp) (left right : Slot) : Orderly (combine op left right) := by
  unfold combine
  infer_instance

instance (op : BinaryOp) : Orderly (lowerBinary op left right) := by
  unfold lowerBinary
  infer_instance

instance : Orderly (lowerDiscard operand) := by
  unfold lowerDiscard
  infer_instance

instance : Orderly (lowerDeref operand) := by
  unfold lowerDeref
  infer_instance

instance (f : Word → Word) (operand : Lowered) : Orderly (foldConstant f operand) := by
  unfold foldConstant
  infer_instance

instance : Orderly (lowerComplement operand) := by
  unfold lowerComplement
  infer_instance

instance : Orderly (lowerNegate operand) := by
  unfold lowerNegate
  infer_instance

instance (slot : Slot) : Orderly (knownAddress slot) := by
  unfold knownAddress
  infer_instance

instance (offset : Offset) : Orderly (offsetSlot? offset) := by
  unfold offsetSlot?
  split <;> infer_instance

instance (scratch : Slot) (index : Option Slot) : Orderly (addOffset scratch index) := by
  unfold addOffset
  split <;> infer_instance

instance (slot : Slot) (offset : Offset) : Orderly (computedAddress slot offset) := by
  unfold computedAddress
  infer_instance

instance : Orderly (lowerAddressOf operand) := by
  unfold lowerAddressOf
  refine orderly_bind fun here => ?_
  dsimp only
  split <;> infer_instance

instance (namesPlace : Bool) : Orderly (lowerTarget namesPlace target) := by
  have (place : Lowered) : Orderly (α := Lowered)
      (match place.slot.kind, place.slot.offset with
        | .constant, none | .void, _ | .struct, _ => fail .invalidTarget
        | _, _ => pure place) := by
    split <;> infer_instance
  unfold lowerTarget
  infer_instance

instance (plain : Bool) (slot : Slot) : Orderly (reserveTarget plain slot) where
  leads f s := by
    rw [outcome_reserveTarget]
    split
    · next h => exact .move (.reserve h.1 (by simpa [h.2.1] using h.2))
    · exact .move (.forbid s)
  cause f s e := by simp [outcome_reserveTarget]
  unreserved f s _ := by
    simp only [outcome_reserveTarget, Scope.unreserved, Reuse.forbid]
    simp
  proceeds f s := by
    rw [outcome_reserveTarget]
    exact .of_eq rfl rfl rfl
  options f s o := by
    rw [outcome_reserveTarget, outcome_reserveTarget]
    rfl

instance (slot value : Slot) : Orderly (storeValue slot value) := by
  unfold storeValue
  infer_instance

instance (op : BinaryOp) (slot value : Slot) : Orderly (updateTarget op slot value) := by
  unfold updateTarget
  infer_instance

instance (op : Option BinaryOp) (conflicts : Bool) :
    Orderly (lowerAssign op conflicts target value) := by
  unfold lowerAssign
  cases op <;> infer_instance

instance (up before : Bool) : Orderly (lowerStep up before target) := by
  unfold lowerStep
  infer_instance

instance (name : String) : Orderly (passArgument value name) := by
  unfold passArgument
  infer_instance

end Values

theorem orderly_passArguments {values : List (Lower Lowered)}
    (h : ∀ value ∈ values, Orderly value) (names : List String) :
    Orderly (passArguments values names) := by
  fun_induction passArguments values names with
  | case1 value values name names ih =>
    have hvalue := h value (by simp)
    have hlater := ih fun value hv => h value (by simp [hv])
    infer_instance
  | case2 => infer_instance

instance (type : ValueType) : Orderly (fetchResult type) := by
  unfold fetchResult
  infer_instance

theorem orderly_lowerCall (name : String) {args : List (Lower Lowered)}
    (h : ∀ arg ∈ args, Orderly arg) : Orderly (lowerCall name args) := by
  have hpassed := orderly_passArguments h
  unfold lowerCall
  refine orderly_get (fun s => ?_) fun _ _ => rfl
  have hlive (passed : Code) (signature : Signature) : Orderly (α := Lowered) (do
      let live := (← get).liveValues.map Slot.asmName
      let result ← fetchResult signature.returnType
      return ⟨result.slot, passed ++ live.reverse.map Instr.push ++ [.call s!"__fn_{name}"] ++
        result.code ++ live.map Instr.pop⟩) := by
    refine orderly_get (fun _ => inferInstance) fun s hs => ?_
    have hforbidden : s.unreserved.reuse.taken? = none := rfl
    simp only [Scope.liveValues, hs, hforbidden]
    rfl
  infer_instance

class Lowering.Orderly (l : Lowering) : Prop where
  value : Lower.Orderly l.value
  branch : ∀ b, Lower.Orderly (l.branch b)

attribute [instance] Lowering.Orderly.value Lowering.Orderly.branch

instance (value : Lower Lowered) [Orderly value] : (Lowering.ofValue value).Orderly := by
  constructor <;> (unfold Lowering.ofValue; infer_instance)

instance (branch : Branch → Lower Code) [∀ b, Orderly (branch b)] :
    (Lowering.ofBranch branch).Orderly := by
  constructor <;> (unfold Lowering.ofBranch; infer_instance)

instance (hex : String) (fixed : Bool) : (Lowering.ofConstant hex fixed).Orderly := by
  constructor <;> (unfold Lowering.ofConstant; infer_instance)

instance (op : UnaryOp) (isLookup : Bool) (operand : Lowering) [operand.Orderly] :
    (Lowering.ofUnary op isLookup operand).Orderly := by
  cases op <;> (unfold Lowering.ofUnary; infer_instance)

end Lower

namespace Expr

open Lower

mutual

theorem orderly_lowering : (e : Expr) → e.lowering.Orderly
  | constant _ _ _ => by unfold lowering; infer_instance
  | lookup name path _ => by
    have := orderly_lowerLookup name (orderly_pathSteps path)
    unfold lowering
    infer_instance
  | call name args _ => by
    have := orderly_lowerCall name (orderly_argValues args)
    unfold lowering
    infer_instance
  | unary op operand _ => by
    have := operand.orderly_lowering
    unfold lowering
    infer_instance
  | binary _ left right _ | compare _ left right _ | logical _ left right _ => by
    have := left.orderly_lowering
    have := right.orderly_lowering
    unfold lowering
    infer_instance
  | assign _ target value _ => by
    have := target.orderly_lowering
    have := value.orderly_lowering
    unfold lowering
    infer_instance
  | step _ _ target _ => by
    have := target.orderly_lowering
    unfold lowering
    infer_instance

theorem orderly_pathSteps : (path : List Access) → ∀ step ∈ pathSteps path, step.Orderly
  | [] => by simp [pathSteps]
  | .index index :: rest => by
    have := index.orderly_lowering
    have := orderly_pathSteps rest
    simpa [pathSteps] using ⟨inferInstance, this⟩
  | .member name :: rest => by
    have := orderly_pathSteps rest
    simpa [pathSteps] using ⟨inferInstance, this⟩
  | .arrow name :: rest => by
    have := orderly_pathSteps rest
    simpa [pathSteps] using ⟨inferInstance, this⟩

theorem orderly_argValues : (args : List Expr) → ∀ value ∈ argValues args, Lower.Orderly value
  | [] => by simp [argValues]
  | arg :: rest => by
    have := arg.orderly_lowering
    have := orderly_argValues rest
    simpa [argValues] using ⟨inferInstance, this⟩

end

instance (e : Expr) : e.lowering.Orderly :=
  e.orderly_lowering

instance (e : Expr) : Orderly e.lower := by
  unfold lower
  infer_instance

instance (e : Expr) (b : Branch) : Orderly (e.lowerCondition b) := by
  unfold lowerCondition
  infer_instance

end Expr

end Flatword
