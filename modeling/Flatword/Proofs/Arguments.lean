import Flatword.Proofs.Context
import Flatword.Proofs.Pure

/-!
# Arguments of calls

The arguments of a call are computed and stored one after the other, the last one first, straight to the
words of the function. So an argument is right unless it reads one of the words of later ones.
-/

namespace Flatword

/-- The address of the plain word of a name in the assembly. -/
def Ground.word? (g : Ground) (asmName : String) : Option Nat :=
  (g.slots.find? (·.asmName = asmName)).bind fun slot => if slot.isPlain then slot.address else none

/-- The memory after all arguments have been stored, the last one first. -/
def deliver (alu : Alu) (vars : String → Option Nat) : List Expr → (places : List Nat) → Memory →
    Memory
  | arg :: args, a :: places, μ =>
    let later := deliver alu vars args places μ
    Function.update later a (arg.eval alu vars later)
  | _, _, μ => μ

section Deliver

variable {alu : Alu} {vars : String → Option Nat} {args : List Expr} {places : List Nat} {μ : Memory}

theorem deliver_agree : AgreeOutside {a | a ∈ places} μ (deliver alu vars args places μ) := by
  fun_induction deliver alu vars args places μ with
  | case1 arg args a places μ later ih =>
    have hlater : AgreeOutside {b | b ∈ a :: places} μ later :=
      ih.mono fun b hb => List.mem_cons_of_mem a hb
    exact hlater.update List.mem_cons_self _
  | case2 => exact .refl _ _

theorem deliver_getElem (hplaces : places.Nodup) {k : Nat} {arg : Expr} {a : Nat}
    (harg : args[k]? = some arg) (ha : places[k]? = some a) :
    deliver alu vars args places μ a =
      arg.eval alu vars (deliver alu vars (args.drop (k + 1)) (places.drop (k + 1)) μ) := by
  fun_induction deliver alu vars args places μ generalizing k with
  | case1 x args b places μ later ih =>
    cases k with
    | zero =>
      obtain rfl : x = arg := by simpa using harg
      obtain rfl : b = a := by simpa using ha
      exact Function.update_self ..
    | succ k =>
      rw [List.getElem?_cons_succ] at harg ha
      obtain ⟨hb, hplaces⟩ := List.nodup_cons.mp hplaces
      have hne : a ≠ b := fun heq => hb (heq ▸ List.mem_of_getElem? ha)
      rw [Function.update_of_ne hne]
      exact ih hplaces harg ha
  | case2 args places μ hnone =>
    cases args with
    | nil => simp at harg
    | cons x args =>
      cases places with
      | nil => simp at ha
      | cons b places => exact (hnone x args b places rfl rfl).elim

end Deliver

/-- The arguments of a function stand in plain words of their own, which are not scratch places and
do not stand for constants. -/
structure Signature.Stands (sig : Signature) (s : Scope) (places : List Nat) : Prop where
  found : List.Forall₂ (fun name a => s.ground.word? name = some a) sig.arguments places
  distinct : places.Nodup
  scratch : ∀ a ∈ places, a ∉ s.scratch
  constants : ∀ {slot w a}, s.ground.Names slot w → slot.address = some a → a ∉ places

namespace Lower

variable {a : Nat} {code : Code} {name : String} {v : Lowered} {m : Machine} {f : Frame} {o s t : Scope}

theorem lookupAsm?_find? {found : Option Slot} (h : Gives (lookupAsm? name) f s found t) :
    s.ground.slots.find? (·.asmName = name) = found.map Slot.unmarked := by
  have hfind : s.ground.slots.find? (·.asmName = name) =
      (s.session.table.findAsm? name).map Slot.unmarked := by
    rw [Scope.ground, List.find?_map]
    rfl
  rw [lookupAsm?, gives_get_bind] at h
  rw [hfind]
  split at h
  · next slot hslot =>
    simp only [gives_bind, gives_pure] at h
    obtain ⟨x, _, hx, rfl, -⟩ := h
    obtain ⟨rfl, -⟩ := noteUse_notes hx
    rw [hslot]
  · next hnone =>
    obtain ⟨rfl, -⟩ := gives_pure.mp h
    rw [hnone]

theorem lookupAsm?_word {x : Slot} (hs : s.Ready m) (ha : s.ground.word? name = some a)
    (h : Gives (lookupAsm? name) f s (some x) t) : x.isPlain = true ∧ x.IsAt m a := by
  have hplain : x.unmarked.isPlain = x.isPlain := rfl
  have haddress : x.unmarked.address = x.address := rfl
  rw [Ground.word?, lookupAsm?_find? h, Option.map_some, Option.bind_some, hplain, haddress] at ha
  split at ha
  · next hp =>
    have hknows := (lookupAsm?_notes h).1 x rfl
    have hkind : x.unmarked.kind ≠ .struct := Slot.kind_ne_of_isPlain hp
    obtain ⟨-, b, hb⟩ := hs.slots _ hknows hkind
    obtain rfl := Option.some.inj (ha.symm.trans hb.1)
    exact ⟨hp, hb⟩
  · simp at ha

/-- Code that stores arguments to their words, and changes nothing else but scratch places. -/
structure Passed (m : Machine) (o : Scope) (stored : Memory → Memory) (code : Code) (t : Scope) :
    Prop where
  continues : o.Continues t
  labels : code.labels = []
  runs : ∀ μ, o.ground.HoldIn μ →
    ∃ μ', m.Runs code μ μ' ∧ AgreeOutside o.scratch (stored μ) μ'

theorem passArgument_passed {arg : Expr} (ho : o.Ready m)
    (harg : arg.IsPure (o.ground.long? f.function) o.scratch) (ha : o.ground.word? name = some a)
    (hs : o.Continues s) (h : Gives (passArgument arg.lower name) f s code t) :
    Passed m o (fun μ => Function.update μ a (arg.eval m.alu (o.ground.long? f.function) μ)) code
      t := by
  simp only [passArgument, gives_bind, gives_onSide, gives_orFail, gives_pure] at h
  obtain ⟨v, s₁, hv, _, s₂, hfound, x, _, ⟨rfl, rfl⟩, stored, s₃, hassign, _, s₄, hrelease, rfl,
    rfl⟩ := h
  have hv := (reliable_of_isPure ho harg).computed hs hv
  have hs₁ := hs.trans hv.continues
  obtain ⟨hplain, hat⟩ := lookupAsm?_word (hs₁.ready ho) (hs₁.ground ▸ ha) hfound
  have hs₂ := hs₁.trans (.of_notes (lookupAsm?_notes hfound).2)
  obtain ⟨read, hread, hruns⟩ := hv.operand
  obtain ⟨rfl, hlabels, hassigns⟩ := assign_runs (hs₂.ready ho).placed hplain hat hread hassign
  obtain ⟨hs₄, -, -⟩ := releaseOperand_spare (hs₂.ready ho).regular hread.offset hrelease
  refine ⟨hs₂.trans hs₄, by simp [hv.labels, hlabels], fun μ hμ => ?_⟩
  have hscratch : s.spare ⊆ o.scratch := hs.scratch ▸ s.spare_subset_scratch
  obtain ⟨μ₁, hruns₁, hagree₁, hvalue₁⟩ := hruns μ (hs.ground ▸ hμ)
  have hμ₁ : o.ground.HoldIn μ₁ := ho.holdIn (hagree₁.mono hscratch) hμ
  refine ⟨_, hruns₁.append (hassigns μ₁ (hs₂.ground ▸ hμ₁)), fun b hb => ?_⟩
  rw [hvalue₁]
  by_cases hba : b = a
  · rw [hba, Function.update_self, Function.update_self]
  · rw [Function.update_of_ne hba, Function.update_of_ne hba]
    exact hagree₁ b fun hmem => hb (hscratch hmem)

theorem passArguments_passed {args : List Expr} {names : List String} {places : List Nat}
    (ho : o.Ready m) (hargs : ∀ arg ∈ args, arg.IsPure (o.ground.long? f.function) o.scratch)
    (hplaces : List.Forall₂ (fun name a => o.ground.word? name = some a) names places)
    (hconstants : ∀ {slot w a}, o.ground.Names slot w → slot.address = some a → a ∉ places)
    (hs : o.Continues s) (h : Gives (passArguments (Expr.argValues args) names) f s code t) :
    Passed m o (deliver m.alu (o.ground.long? f.function) args places) code t := by
  have hnone {stored : Memory → Memory} {code : Code} {t : Scope} (hstored : ∀ μ, stored μ = μ)
      (h : Gives (pure [] : Lower Code) f s code t) : Passed m o stored code t := by
    obtain ⟨rfl, rfl⟩ := gives_pure.mp h
    exact ⟨hs, rfl, fun μ _ => ⟨μ, .nil, by rw [hstored]; exact .refl _ μ⟩⟩
  induction args generalizing names places code t with
  | nil =>
    rw [Expr.argValues, passArguments] at h
    · exact hnone (fun μ => by cases places <;> rfl) h
    · simp
  | cons arg args ih =>
    cases hplaces with
    | nil =>
      rw [Expr.argValues, passArguments] at h
      · exact hnone (fun μ => rfl) h
      · simp
    | @cons name a names places ha hplaces =>
      rw [Expr.argValues, passArguments] at h
      simp only [gives_bind, gives_pure] at h
      obtain ⟨later, s₁, hlater, first, s₂, hfirst, rfl, rfl⟩ := h
      have hconstants' {slot : Slot} {w : Word} {b : Nat} (hn : o.ground.Names slot w)
          (hb : slot.address = some b) : b ∉ places :=
        fun hmem => hconstants hn hb (List.mem_cons_of_mem a hmem)
      have hlater := ih (fun x hx => hargs x (by simp [hx])) hplaces hconstants' hlater
      have hreliable := reliable_of_isPure ho (hargs arg (by simp))
      have hfirst := passArgument_passed ho (hargs arg (by simp)) ha hlater.continues hfirst
      refine ⟨hfirst.continues, by simp [hlater.labels, hfirst.labels], fun μ hμ => ?_⟩
      obtain ⟨μ₁, hruns₁, hagree₁⟩ := hlater.runs μ hμ
      have hstored : o.ground.HoldIn
          (deliver m.alu (o.ground.long? f.function) args places μ) := by
        intro slot w b hn hb
        rw [deliver_agree b (hconstants' hn hb)]
        exact hμ slot w b hn hb
      obtain ⟨μ₂, hruns₂, hagree₂⟩ := hfirst.runs μ₁ (ho.holdIn hagree₁ hstored)
      refine ⟨μ₂, hruns₁.append hruns₂, fun b hb => ?_⟩
      rw [hagree₂ b hb, deliver, hreliable.steady hagree₁]
      by_cases hba : b = a
      · rw [hba, Function.update_self, Function.update_self]
      · rw [Function.update_of_ne hba, Function.update_of_ne hba, hagree₁ b hb]

theorem push_live {slots : List Slot} (h : ∀ slot ∈ slots, ∃ a, slot.IsAt m a) (μ : Memory)
    (stack : List Word) :
    ∃ stack', m.flow (slots.map fun slot => Instr.push slot.asmName) (.falling ⟨μ, stack⟩) =
      .falling ⟨μ, stack'⟩ := by
  induction slots generalizing stack with
  | nil => exact ⟨stack, rfl⟩
  | cons slot slots ih =>
    obtain ⟨a, ha⟩ := h slot (by simp)
    obtain ⟨stack', hstack'⟩ := ih (fun x hx => h x (by simp [hx])) (μ a :: stack)
    refine ⟨stack', ?_⟩
    rw [List.map_cons, Machine.flow_cons]
    simpa [Machine.pass, Machine.act, Machine.read, ha.2] using hstack'

theorem isAt_of_mem_liveValues (hs : s.Ready m) {slot : Slot} (h : slot ∈ s.liveValues) :
    ∃ a, slot.IsAt m a := by
  rcases List.mem_append.mp h with h | h
  · have htarget : slot ∈ s.reuse.target? := by
      revert h
      cases s.reuse <;> simp [Reuse.taken?, Reuse.target?, eq_comm]
    obtain ⟨a, ha, -⟩ := hs.target slot htarget
    exact ⟨a, ha⟩
  · obtain ⟨r, hr, rfl⟩ := List.mem_map.mp h
    exact hs.registers r.slot (List.mem_map_of_mem (List.mem_of_mem_filter hr))

theorem labels_map_eq_nil {α : Type} {g : α → Instr} (hg : ∀ a, Code.labels [g a] = [])
    (xs : List α) : Code.labels (xs.map g) = [] := by
  induction xs with
  | nil => rfl
  | cons x xs ih => rw [List.map_cons, ← List.singleton_append, Code.labels_append, hg, ih]; rfl

/-- What a call is made of: its arguments are stored, live values are saved, and after the call the
result is fetched and the values are restored. -/
theorem lowerCall_gives {args : List (Lower Lowered)} (h : Gives (lowerCall name args) f s v t) :
    ∃ sig passed u result, s.session.signature? name = some sig ∧ sig.arguments.length = args.length ∧
      Gives (passArguments args sig.arguments) f s passed u ∧
      Gives (fetchResult sig.returnType) f u result t ∧ v.slot = result.slot ∧
      v.code = passed ++ ((u.liveValues.map Slot.asmName).reverse.map .push ++
        [.call (Assembly.entry name)] ++ result.code ++ (u.liveValues.map Slot.asmName).map .pop) := by
  simp only [lowerCall, gives_bind, gives_get, gives_orFail] at h
  obtain ⟨_, _, ⟨rfl, rfl⟩, sig, _, ⟨hsig, rfl⟩, h⟩ := h
  split at h
  · simp at h
  next hlength =>
  simp only [gives_bind, gives_get, gives_pure] at h
  obtain ⟨passed, u, hpassed, _, _, ⟨rfl, rfl⟩, result, _, hresult, rfl, rfl⟩ := h
  exact ⟨sig, passed, u, result, hsig, not_not.mp hlength, hpassed, hresult, rfl, by simp [Assembly.entry]⟩

theorem fetchResult_gives {type : ValueType} (h : Gives (fetchResult type) f s v t) :
    type = .void ∧ v = ⟨.void, []⟩ ∧ t = s ∨ type ≠ .void ∧ ∃ x, Gives allocate f s x t ∧
      v.slot.asmName = x.asmName ∧ v.code = [.move x.asmName "r0"] := by
  unfold fetchResult at h
  split at h
  · next htype =>
    obtain ⟨rfl, rfl⟩ := gives_pure.mp h
    exact .inl ⟨htype, rfl, rfl⟩
  · next htype =>
    simp only [gives_bind, gives_pure] at h
    obtain ⟨x, _, hx, rfl, rfl⟩ := h
    refine .inr ⟨htype, x, hx, ?_, rfl⟩
    dsimp only
    split <;> rfl

theorem lowerCall_code {args : List (Lower Lowered)} {sig : Signature}
    (hsig : s.session.signature? name = some sig) (h : Gives (lowerCall name args) f s v t) :
    ∃ passed u after, Gives (passArguments args sig.arguments) f s passed u ∧
      Code.labels after = [] ∧
      v.code = passed ++ u.liveValues.reverse.map (fun slot => .push slot.asmName) ++
        .call (Assembly.entry name) :: after := by
  obtain ⟨sig', passed, u, result, hsig', -, hpassed, hresult, -, hcode⟩ := lowerCall_gives h
  obtain rfl := Option.some.inj (hsig.symm.trans hsig')
  have hlabels : result.code.labels = [] := by
    rcases fetchResult_gives hresult with ⟨-, rfl, -⟩ | ⟨-, x, -, -, hx⟩
    · rfl
    · rw [hx]
      rfl
  refine ⟨passed, u, result.code ++ (u.liveValues.map Slot.asmName).map Instr.pop, hpassed, ?_, ?_⟩
  · rw [Code.labels_append, hlabels, labels_map_eq_nil fun _ => rfl]
    rfl
  · simp [hcode, List.map_reverse]

end Lower

/-- When control comes to the call of a function, the word of each argument holds its value in the
memory into which all later arguments have been stored. This is its value in the memory before the
call if it does not read the word of a later argument. -/
theorem Expr.call_delivers {m : Machine} {f : Frame} {s t : Scope} {name : String}
    {args : List Expr} {line : Line} {v : Lower.Lowered} {sig : Signature} {places : List Nat}
    (hs : s.Ready m) (hsig : s.session.signature? name = some sig)
    (hplaces : sig.Stands s places)
    (hargs : ∀ arg ∈ args, arg.IsPure (s.ground.long? f.function) s.scratch)
    (h : Gives (Expr.call name args line).lower f s v t) {μ : Memory} (hμ : s.ground.HoldIn μ)
    (stack : List Word) :
    ∃ (pc : Nat) (μ' : Memory) (stack' : List Word),
      v.code[pc]? = some (.call (Assembly.entry name)) ∧
      m.Steps v.code (.at 0 ⟨μ, stack⟩) (.at pc ⟨μ', stack'⟩) ∧
      ∀ (k : Nat) (arg : Expr) (a : Nat), args[k]? = some arg → places[k]? = some a →
        μ' a = arg.eval m.alu (s.ground.long? f.function)
          (deliver m.alu (s.ground.long? f.function) (args.drop (k + 1)) (places.drop (k + 1)) μ) ∧
        (arg.IsPure (s.ground.long? f.function) (s.scratch ∪ {b | b ∈ places.drop (k + 1)}) →
          μ' a = arg.eval m.alu (s.ground.long? f.function) μ) := by
  obtain ⟨passed, u, after, hpassed, hafter, hcode⟩ := Lower.lowerCall_code hsig h
  have hpassed := Lower.passArguments_passed hs hargs hplaces.found hplaces.constants (.refl s) hpassed
  obtain ⟨μ', hruns, hagree⟩ := hpassed.runs μ hμ
  let pushes : Code := u.liveValues.reverse.map fun slot => .push slot.asmName
  have hpushes : pushes.labels = [] := Lower.labels_map_eq_nil (fun _ => rfl) _
  obtain ⟨stack', hpush⟩ : ∃ stack', m.flow pushes (.falling ⟨μ', stack⟩) =
      .falling ⟨μ', stack'⟩ :=
    Lower.push_live (fun slot hslot => Lower.isAt_of_mem_liveValues (hpassed.continues.ready hs)
      (List.mem_reverse.mp hslot)) μ' stack
  let before := passed ++ pushes
  have hvalue {k : Nat} {arg : Expr} {a : Nat} (harg : args[k]? = some arg)
      (ha : places[k]? = some a) := by
    have hstored := hagree a (hplaces.scratch a (List.mem_of_getElem? ha))
    rw [deliver_getElem hplaces.distinct harg ha] at hstored
    exact hstored
  refine ⟨before.length, μ', stack', by simp [hcode, before, pushes], ?_,
    fun k arg a harg ha => ⟨hvalue harg ha, fun hpure => ?_⟩⟩
  · have hsteps := Machine.steps_flow [] before (.call (Assembly.entry name) :: after)
      (.falling ⟨μ, stack⟩) (m := m) ?_
    · have hflow : m.flow before (.falling ⟨μ, stack⟩) = .falling ⟨μ', stack'⟩ := by
        rw [Machine.flow_append, hruns, hpush]
      rw [hflow] at hsteps
      simpa [Mode.run, hcode, before, pushes] using hsteps
    · have hcall : Code.labels (.call (Assembly.entry name) :: after) = [] := hafter
      simp [before, Code.labels_append, hpassed.labels, hpushes, hcall]
  · rw [hvalue harg ha]
    exact hpure.steady m.alu
      (deliver_agree.mono Set.subset_union_right)

def Session.ofFunction (name : String) (arguments : List String) : Session where
  options := {}
  table := (Table.append {} (Session.registerSlots 3 ++ arguments.map fun argument =>
    { name := argument, asmName := name ++ "_" ++ argument, scope := name, kind := .long,
      type := .long })).1
  functions := [{ name, returnType := .void, arguments := arguments.map (name ++ "_" ++ ·) }]

/-- A function calls itself with its arguments swapped: the word of `a` gets the value of `a` that
has just been stored to the word of `b`. -/
theorem swappedArguments_delivers_first :
    ∃ (m : Machine) (s t : Scope) (v : Lower.Lowered) (μ : Memory), s.Ready m ∧ s.ground.HoldIn μ ∧
      Gives (Expr.call "f" [.var "b" 1, .var "a" 1] 1).lower { line := 1, function := some "f" }
        s v t ∧
      (Expr.var "b" 1).eval m.alu (s.ground.long? (some "f")) μ = 2 ∧
      ∃ (pc : Nat) (μ' : Memory) (stack : List Word), v.code[pc]? = some (.call "__fn_f") ∧
        m.Steps v.code (.at 0 ⟨μ, []⟩) (.at pc ⟨μ', stack⟩) ∧
        s.ground.word? "f_a" = some 3 ∧ μ' 3 = 1 ∧ s.ground.word? "f_b" = some 4 ∧ μ' 4 = 1 := by
  let session := Session.ofFunction "f" ["a", "b"]
  let scope := Scope.start session
  have hslots : ∀ slot ∈ session.table.slots, slot.content = none := by decide +kernel
  have hsound : session.table.Sound := by
    refine Session.sound_append_registerSlots fun slot hslot => ?_
    obtain ⟨name, hname, rfl⟩ := List.mem_map.mp hslot
    exact ⟨nofun, nofun, rfl, by revert name; decide +kernel⟩
  have hready : scope.Ready _ := Scope.ready_start hsound (hsound.has_machine .unsigned)
    fun slot hslot h => absurd (hslots slot hslot) h
  have hnone {slot : Slot} {w : Word} : ¬ scope.ground.Names slot w := Scope.not_names_start hslots
  have hscratch (a : Nat) (ha : some a ∉ scope.ground.registers.map Slot.address) :
      a ∉ scope.scratch := by
    rintro (hregister | ⟨target, ht, -⟩)
    · exact ha hregister
    · simp [scope, Scope.start, Reuse.target?] at ht
  have hstands : Signature.Stands
      { name := "f", returnType := .void, arguments := ["f_a", "f_b"] } scope [3, 4] := by
    refine ⟨.cons (by decide +kernel) (.cons (by decide +kernel) .nil), by decide, fun a ha => ?_,
      fun hnames => absurd hnames hnone⟩
    exact hscratch a (by revert a; decide +kernel)
  have hpure (name : String) (a : Nat) (h : scope.ground.long? (some "f") name = some a)
      (ha : some a ∉ scope.ground.registers.map Slot.address) :
      (Expr.var name 1).IsPure (scope.ground.long? (some "f")) scope.scratch :=
    .operand (.lookup h (hscratch a ha))
  have hargs : ∀ arg ∈ [Expr.var "b" 1, .var "a" 1],
      arg.IsPure (scope.ground.long? (some "f")) scope.scratch := by
    simp only [List.forall_mem_cons, List.not_mem_nil, false_imp_iff, implies_true, and_true]
    exact ⟨hpure "b" 4 (by decide +kernel) (by decide +kernel),
      hpure "a" 3 (by decide +kernel) (by decide +kernel)⟩
  have hcode : (outcome (Expr.call "f" [.var "b" 1, .var "a" 1] 1).lower
      { line := 1, function := some "f" } scope).1.toOption.isSome = true := by decide +kernel
  obtain ⟨v, hv⟩ := Option.isSome_iff_exists.mp hcode
  have hgives := gives_of_toOption hv
  let μ : Memory := fun a => if a = 3 then 1 else 2
  have hμ : scope.ground.HoldIn μ := fun slot w a hnames => absurd hnames hnone
  obtain ⟨pc, μ', stack, hcall, hsteps, hvalues⟩ :=
    Expr.call_delivers hready (by decide +kernel) hstands hargs hgives hμ []
  refine ⟨_, scope, _, v, μ, hready, hμ, hgives, by decide +kernel, pc, μ', stack, hcall, hsteps,
    by decide +kernel, ?_, by decide +kernel, ?_⟩
  · rw [(hvalues 0 _ _ rfl rfl).1]
    decide +kernel
  · rw [(hvalues 1 _ _ rfl rfl).1]
    decide +kernel

end Flatword
