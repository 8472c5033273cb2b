import Flatword.Proofs.Early

/-!
# What is done before the program starts

The lines of a program that are done before it starts give known values to words. The exceptions are the
`const` sentences whose target is found only when the program runs, or is a scratch register: each of them has
a line that is no such initialisation.
-/

namespace Flatword

/-! ## Tables -/

namespace Session

variable {options : Options} {defined : List (Place × Definition)} {s t : Session}

theorem isRegisterName_cell (hlaid : s.table.Laid) (hlimit : s.table.words ≤ wordLimit)
    {header y : Slot} (hheader : header ∈ s.table.slots) (hk : header.kind = .array) {item : ArrayItem}
    {base : Word} (hitem : header.item = some item) (hbase : header.value? = some base) {i : Nat}
    (hi : i < item.totalSize - 1) (hy : y ∈ s.table.slots) (hyk : y.kind ≠ .struct)
    (hya : y.address = some (base.toNat + i)) : isRegisterName y.asmName = false := by
  obtain ⟨a, item', cells, ha, hitem', hlength, hunder, hcells⟩ := hlaid.exists_cells hheader hk
  obtain rfl := Option.some.inj (hitem'.symm.trans hitem)
  obtain ⟨b, hb, hcontent⟩ := hlaid.contents header hheader hk
  obtain rfl := Option.some.inj (ha.symm.trans hb)
  have hlt : i < cells.length := by omega
  have hword := hcells i hlt
  have hroom : a + 1 + i < wordLimit := by
    obtain ⟨hbound, -⟩ := List.getElem?_eq_some_iff.mp hword
    rw [length_wordSlots, ← hlaid.layout.next] at hbound
    exact Nat.lt_of_lt_of_le hbound hlimit
  have hbase : base.toNat = a + 1 := by
    rw [Slot.value?, hcontent, Option.bind_some, Hex.value?_ofWord] at hbase
    rw [← Option.some.inj hbase, UInt64.toNat_ofNat_of_lt']
    exact Nat.lt_of_le_of_lt (Nat.le_add_right _ i) hroom
  have hfind := hlaid.layout.findAt?_wordSlots hword
  have hfound := List.find?_some hfind
  simp only [Bool.and_eq_true, decide_eq_true_eq] at hfound
  have hsame : y = cells[i] := by
    refine hlaid.layout.eq_of_address hy (List.mem_of_find?_eq_some hfind) hyk hfound.2 ?_
    rw [hya, hbase, hfound.1]
  obtain ⟨rest, hrest⟩ := hunder cells[i] (List.getElem_mem hlt)
  exact isRegisterName_eq_false (by simp [hsame, hrest])

theorem Reached.tidy (h : Reached options defined s) (hlaid : s.table.Laid)
    (hlimit : s.table.words ≤ wordLimit)
    (hwords : ∀ x ∈ s.table.slots, isRegisterName x.asmName = true → x.kind.isRegular = true) :
    (Scope.start s).ground.Tidy where
  regular := h.regular fun r hr => hwords r (List.mem_filter.mp hr).1 (List.mem_filter.mp hr).2
  fair := h.fair
  stored := List.forall_mem_map.mpr h.stored
  words := List.forall_mem_map.mpr hwords
  places := by
    simp only [Scope.ground, List.forall_mem_map]
    intro y hy z hz hyk hzk ha
    rw [hlaid.layout.eq_of_address hy hz hyk hzk ha]
  cells := by
    simp only [Scope.ground, List.forall_mem_map]
    intro x hx hk item base hitem hbase i hi y hy hyk hya
    have hname := isRegisterName_cell hlaid hlimit hx hk hitem hbase hi hy hyk hya
    exact hname

theorem Leads.autoConstants (h : s.Leads t) : t.autoConstants = s.autoConstants :=
  h.same (fun _ _ => rfl) fun hmove => by cases hmove <;> rfl

theorem autoConstants_start (h : start options = .ok s) :
    ∀ name ∈ s.autoConstants, isRegisterName name = false := by
  obtain ⟨-, rfl⟩ := start_eq_ok h
  intro name hname
  obtain ⟨x, hx, rfl⟩ := List.mem_map.mp hname
  obtain ⟨i, -, rfl⟩ := List.mem_map.mp hx
  simp [isRegisterName, toString]

end Session

/-! ## Stores of constants -/

/-- The slot that a target stands for before the program starts: itself, or what lies at a known
address. -/
inductive Ground.Settles (g : Ground) : Slot → Slot → Prop
  | word {x} (ho : x.offset = none) : Settles g x x
  | address {x y base words} (hk : x.kind = .constant)
      (ho : x.offset = some (.known words)) (hbase : x.value? = some base) (hy : y ∈ g.slots)
      (hyk : y.kind ≠ .struct) (ha : y.address = some (base.toNat + words.toInt).toNat) : Settles g x y

namespace Lower

open Ground

variable {g : Ground} {f : Frame} {s t : Scope} {left right : Slot} {depth : Nat} {code : Code}

theorem assignWithin_address (hg : g.Tidy) (hs : s.ground = g) (hk : left.kind = .constant)
    (ho : left.offset ≠ none) (h : Gives (assignWithin (depth + 1) left right) f s code t) :
    ∃ x u, s.Knows x ∧ x.kind ≠ .struct ∧ s.Notes u ∧ g.Settles left x.unmarked ∧
      Gives (assignWithin (depth + 1) x right) f u code t := by
  rw [assignWithin] at h
  obtain ⟨x, u, hx, h⟩ := gives_bind.mp h
  obtain ⟨words, hwords⟩ : ∃ words, left.offset = some (.known words) := by
    rcases hoffset : left.offset with _ | words | index
    · exact absurd hoffset ho
    · exact ⟨words, rfl⟩
    · simp [resolveConstant, hk, hoffset] at hx
  simp only [resolveConstant, hk, hwords] at hx
  obtain ⟨hknows, hstruct, base, hbase, ha⟩ := slotAt_gives hx
  have hmem : x.unmarked ∈ g.slots := hs ▸ hknows
  have hsettles : g.Settles left x.unmarked := .address hk hwords hbase hmem hstruct ha
  refine ⟨x, u, hknows, hstruct, (slotAt_notes hx).2, hsettles, ?_⟩
  have hoffset : x.offset = none := (hg.stored _ hmem).2
  rw [assignWithin, resolveConstant_of_offset hoffset]
  exact h

theorem settles_unique (hg : g.Tidy) {x y y' : Slot} (h : g.Settles x y) (h' : g.Settles x y') :
    y = y' := by
  cases h with
  | word ho =>
    cases h' with
    | word => rfl
    | address _ ho' => simp [ho] at ho'
  | address hk ho hbase hy hyk ha =>
    cases h' with
    | word ho' => simp [ho] at ho'
    | address _ ho' hbase' hy' hyk' ha' =>
      obtain rfl := Offset.known.inj (Option.some.inj (ho.symm.trans ho'))
      obtain rfl := Option.some.inj (hbase.symm.trans hbase')
      exact hg.places _ hy _ hy' hyk hyk' (ha.trans ha'.symm)

theorem initialises_assign (hg : g.Tidy) (hf : f.constSentence = true) (hs : s.ground = g)
    (hleft : left.offset = none → left.unmarked ∈ g.slots) (hstruct : left.kind ≠ .struct)
    (hright : right.isConstant = true) {y : Slot} (hy : g.Settles left y)
    (hname : isRegisterName y.asmName = false) (h : Gives (assign left right) f s code t) :
    g.Initialises code := by
  rw [assign, gives_get_bind] at h
  rcases hy with ho | ⟨hk, ho, hbase, hy, hyk, ha⟩
  · have hknows : left.unmarked ∈ s.ground.slots := hs ▸ hleft ho
    exact fills_assignWithin hg hf _ hs hknows hstruct hname hright h
  · obtain ⟨x, u, hknows, hxk, hnotes, hsettles, h⟩ := assignWithin_address hg hs hk (by simp [ho]) h
    obtain rfl := settles_unique hg (.address hk ho hbase hy hyk ha) hsettles
    exact fills_assignWithin hg hf _ (hnotes.ground.trans hs) (hknows.congr hnotes.ground) hxk hname
      hright h

/-- An instruction that is no initialisation of a word other than a scratch register. -/
def Misplaced (instr : Instr) : Prop :=
  ∀ name hex, instr = .setImmediate name hex → isRegisterName name = true

theorem misplaced_of_register (hg : g.Tidy) (hf : f.constSentence = true) {x : Slot}
    (hx : x.unmarked ∈ g.slots) (hname : isRegisterName x.asmName = true)
    (hright : right.isConstant = true) (h : Gives (assignWithin depth x right) f s code t) :
    ∃ instr ∈ code, Misplaced instr := by
  have hword : x.kind.isRegular = true := hg.words x.unmarked hx hname
  have hoffset : x.offset = none := (hg.stored x.unmarked hx).2
  obtain ⟨w, rfl⟩ := assignWithin_constant hf (by simp [Slot.isPlain, hword, hoffset]) hright h
  refine ⟨_, List.mem_singleton_self _, fun name hex heq => ?_⟩
  obtain ⟨rfl, -⟩ : x.asmName = name ∧ _ = hex := by simpa [Instr.setImmediate] using heq
  exact hname

theorem misplaced_store (base : String) (index : Option String) (source : String) :
    Misplaced (.set (.indirect base index) (.var source)) :=
  fun _ _ heq => by simp [Instr.setImmediate] at heq

theorem misplaced_of_behind (hleft : Behind left)
    (h : Gives (assignWithin (depth + 1) left right) f s code t) : ∃ instr ∈ code, Misplaced instr := by
  simp only [assignWithin, resolveConstant_of_kind hleft.kind, gives_bind, gives_pure] at h
  obtain ⟨_, _, ⟨rfl, rfl⟩, right', u, -, h⟩ := h
  have hindexed {flatten : Slot → Lower Flat} {index : Nat}
      (h : Gives (assignIndexed flatten left index right') f u code t) :
      ∃ instr ∈ code, Misplaced instr := by
    simp only [assignIndexed, gives_bind, gives_pure] at h
    obtain ⟨flat, _, -, index, _, -, _, _, -, rfl, -⟩ := h
    exact ⟨_, by simp, misplaced_store left.asmName (some index) flat.slot.asmName⟩
  have hregular {flatten : Slot → Lower Flat} (h : Gives (assignRegular flatten left right') f u code t) :
      ∃ instr ∈ code, Misplaced instr := by
    unfold assignRegular at h
    split at h
    · next ho => exact absurd ho hleft.offset
    · next words _ =>
      unfold assignKnown at h
      obtain ⟨flat, _, -, h⟩ := gives_bind.mp h
      split at h
      · simp only [gives_bind, gives_pure] at h
        obtain ⟨_, _, -, rfl, -⟩ := h
        exact ⟨_, by simp, misplaced_store left.asmName none flat.slot.asmName⟩
      · simp only [gives_bind, gives_pure] at h
        obtain ⟨offset, _, -, _, _, -, _, _, -, rfl, -⟩ := h
        exact ⟨_, by simp, misplaced_store left.asmName (some offset.slot.asmName) flat.slot.asmName⟩
    · exact hindexed h
  split at h
  case h_1 | h_2 | h_3 | h_4 => exact hregular h
  case h_5 =>
    unfold assignArray at h
    split at h
    · next ho => exact absurd ho hleft.offset
    · simp at h
    · exact hindexed h
  all_goals simp at h

theorem Ends.mem {v : Lowered} (h : Ends g v) (hplace : ¬ (v.slot.kind = .constant ∧ v.slot.offset = none))
    (ho : v.slot.offset = none) : v.slot.unmarked ∈ g.slots := by
  cases h with
  | tabled h => exact h.mem
  | address hk _ => exact absurd ⟨hk, ho⟩ hplace
  | behind h => exact absurd ho h.offset

theorem Ends.initialises_of_settles {v : Lowered} (h : Ends g v) {y : Slot} (hy : g.Settles v.slot y) :
    g.Initialises v.code := by
  cases h with
  | tabled h => exact h.code
  | address _ hcode => exact hcode
  | behind h =>
    cases hy with
    | word ho => exact absurd ho h.offset
    | address hk => exact absurd hk h.kind

theorem misplaced_assign (hg : g.Tidy) (hf : f.constSentence = true) (hs : s.ground = g) {code' : Code}
    (hleft : Ends g ⟨left, code'⟩) (hright : right.isConstant = true)
    (hplace : ¬ (left.kind = .constant ∧ left.offset = none))
    (hsettles : ∀ y, g.Settles left y → isRegisterName y.asmName = true)
    (h : Gives (assign left right) f s code t) : ∃ instr ∈ code, Misplaced instr := by
  rw [assign, gives_get_bind] at h
  cases hleft with
  | tabled htabled =>
    have hname := hsettles left (.word (hg.stored _ htabled.mem).2)
    exact misplaced_of_register hg hf htabled.mem hname hright h
  | address hk _ =>
    obtain ⟨x, u, hknows, -, -, hx, h⟩ := assignWithin_address hg hs hk (fun ho => hplace ⟨hk, ho⟩) h
    have hmem : x.unmarked ∈ g.slots := hs ▸ hknows
    have hname : isRegisterName x.asmName = true := hsettles x.unmarked hx
    exact misplaced_of_register hg hf hmem hname hright h
  | behind hbehind => exact misplaced_of_behind hbehind h

/-! ## Sentences -/

theorem lowerTarget_ends (hg : g.Tidy) (hf : f.constSentence = true) (hs : g.Supports s) {target : Expr}
    {place : Lowered} (h : Gives (lowerTarget target.namesPlace target.lower) f s place t) :
    Ends g place ∧ ¬ (place.slot.kind = .constant ∧ place.slot.offset = none) ∧
      place.slot.kind ≠ .struct := by
  obtain ⟨hplace, hvalue, hfound, hstruct, -⟩ := lowerTarget_gives h
  exact ⟨Expr.places_lowering hg target hplace (f := { f with leftSide := true }) hf hs hvalue, hfound,
    hstruct⟩

theorem exists_of_constValue? {e : Expr} {w : Word} (h : constValue? e = some w) :
    ∃ target hex fixed line line',
      e = .assign none target (.constant hex fixed line) line' := by
  unfold constValue? at h
  split at h
  · exact ⟨_, _, _, _, _, rfl⟩
  · simp at h

theorem releaseOperand_post {x : Slot} {y : Unit} (h : Gives (releaseOperand x) f s y t) :
    t.post = s.post := by
  simp only [releaseOperand, Lower.release, gives_bind, gives_modify] at h
  obtain ⟨_, _, rfl, h⟩ := h
  split at h
  · rw [← gives_modify.mp h]
  · rw [← (gives_pure.mp h).2]

theorem recordConstant_post {x : Slot} {w : Word} {y : Unit} (h : Gives (recordConstant x w) f s y t) :
    t.post = s.post := by
  unfold recordConstant at h
  split at h
  · rw [← gives_modify.mp h]
  · rw [← (gives_pure.mp h).2]

theorem constEffect_gives (hg : g.Tidy) {e : Expr} (hs : g.Supports s)
    (h : Gives (constEffect e) f s code t) :
    ∃ target hex fixed line line' place u constant u' stored w post,
      e = .assign none target (.constant hex fixed line) line' ∧
      Gives (lowerTarget target.namesPlace target.lower) f s place u ∧
      g.Supports u' ∧ constant.isConstant = true ∧ Gives (assign place.slot constant) f u' stored w ∧
      code = (place.code ++ stored).map Instr.const ++ post ∧ ∀ instr ∈ post, instr.isEarly = false := by
  simp only [constEffect, gives_bind, gives_orFail, gives_pure] at h
  obtain ⟨w, _, ⟨hw, rfl⟩, v, s₁, hv, _, s₂, hrecord, _, s₃, hrelease, post, s₄, hpost, rfl, -⟩ := h
  obtain ⟨target, hex, fixed, line, line', rfl⟩ := exists_of_constValue? hw
  have hs₁ := ((Expr.static_lowering hg _).supports hs hv).1
  have hlate : ∀ instr ∈ post, instr.isEarly = false := by
    simp only [takePost, gives_bind, gives_get, gives_set, gives_pure] at hpost
    obtain ⟨_, _, ⟨rfl, rfl⟩, _, _, rfl, rfl, -⟩ := hpost
    rw [releaseOperand_post hrelease, recordConstant_post hrecord]
    exact fun instr hinstr => (hs₁.tracks.post s₁ (.refl s₁) instr hinstr).late.1
  simp only [Expr.lower, Expr.lowering, Lowering.ofValue, lowerAssign, gives_bind] at hv
  obtain ⟨place, u, hplace, _, u₁, hreserve, c, u₂, hc, hv⟩ := hv
  obtain ⟨hu, hbacks⟩ := (Expr.static_lowering hg target).lowerTarget.supports hs hplace
  have hu₁ := hu.quiet (quiet_reserveTarget (target_all hbacks) _) hreserve
  obtain ⟨hslot, rfl⟩ := gives_pure.mp hc
  have hconstant : c.slot.isConstant = true ∧ c.code = [] := by
    rw [← hslot]
    cases fixed <;> exact ⟨rfl, rfl⟩
  split at hv
  · simp at hv
  simp only [gives_bind, gives_pure, storeValue] at hv
  obtain ⟨stored, u₃, ⟨_, u₄, hstore, _, _, -, rfl, -⟩, rfl, -⟩ := hv
  refine ⟨target, hex, fixed, line, line', place, u, c.slot, u₁, _, u₄, post, rfl, hplace, hu₁,
    hconstant.1, hstore, ?_, hlate⟩
  rw [hconstant.2, List.append_nil]

end Lower

/-- The target of a `const` sentence is a word of the table, or a whole array of it. -/
def Passage.SetsWord (p : Passage) : Prop :=
  ∃ target hex fixed line line' place u y,
    p.clause = .const (.assign none target (.constant hex fixed line) line') ∧
    Gives (Lower.lowerTarget target.namesPlace target.lower) (p.clause.frame p.function p.line)
      (.start p.before) place u ∧
    (Scope.start p.before).ground.Settles place.slot y ∧ isRegisterName y.asmName = false

namespace Passage

variable {p : Passage}

theorem supports_start {s : Session} (hg : (Scope.start s).ground.Tidy) :
    (Scope.start s).ground.Supports (.start s) :=
  ⟨Clause.tracks_start s, hg.regular, by simp [Scope.start, Reuse.target?]⟩

theorem const_gives (hg : (Scope.start p.before).ground.Tidy) (hconst : p.clause.isConst = true) :
    ∃ target hex fixed line line' place u constant u' stored w,
      p.clause = .const (.assign none target (.constant hex fixed line) line') ∧
      Gives (Lower.lowerTarget target.namesPlace target.lower) (p.clause.frame p.function p.line)
        (.start p.before) place u ∧
      u'.ground = (Scope.start p.before).ground ∧ constant.isConstant = true ∧
      Gives (Lower.assign place.slot constant) (p.clause.frame p.function p.line) u' stored w ∧
      ∀ instr, .const instr ∈ p.code ↔ instr ∈ place.code ++ stored := by
  have h := Lower.gives_whole p.gives
  generalize hf : p.clause.frame p.function p.line = f at h ⊢
  rcases hclause : p.clause with e | e | ⟨e, b⟩ | e <;> simp [hclause, Clause.isConst] at hconst
  rw [hclause] at h
  obtain ⟨target, hex, fixed, line, line', place, u, constant, u', stored, w, post, rfl, hplace, hu',
    hconstant, hstore, hcode, hlate⟩ := Lower.constEffect_gives hg (supports_start hg) h
  refine ⟨target, hex, fixed, line, line', place, u, constant, u', stored, w, rfl, hplace, hu'.ground,
    hconstant, hstore, fun instr => ?_⟩
  rw [hcode, List.mem_append, List.mem_map]
  constructor
  · rintro (⟨x, hx, heq⟩ | hpost)
    · exact Instr.const.inj heq ▸ hx
    · exact absurd (hlate _ hpost) (by simp [Instr.isEarly])
  · exact fun hinstr => .inl ⟨instr, hinstr, rfl⟩

/-- A `const` sentence that sets a word does nothing but initialise words, and every other one has a line
that does not. -/
theorem const_cases (hg : (Scope.start p.before).ground.Tidy) (hconst : p.clause.isConst = true) :
    (p.SetsWord ∧ ∀ instr, .const instr ∈ p.code → (Scope.start p.before).ground.Sets instr) ∨
      (¬ p.SetsWord ∧ ∃ instr, .const instr ∈ p.code ∧ Lower.Misplaced instr) := by
  obtain ⟨target, hex, fixed, line, line', place, u, constant, u', stored, w, hclause, hplace, hu',
    hconstant, hstore, hcode⟩ := const_gives hg hconst
  have hf : (p.clause.frame p.function p.line).constSentence = true := hconst
  obtain ⟨hends, hfound, hstruct⟩ := Lower.lowerTarget_ends hg hf (supports_start hg) hplace
  by_cases hsettled : ∃ y, (Scope.start p.before).ground.Settles place.slot y ∧
      isRegisterName y.asmName = false
  · obtain ⟨y, hy, hname⟩ := hsettled
    refine .inl ⟨⟨target, hex, fixed, line, line', place, u, y, hclause, hplace, hy, hname⟩, ?_⟩
    intro instr hinstr
    rcases List.mem_append.mp ((hcode instr).mp hinstr) with hinstr | hinstr
    · exact hends.initialises_of_settles hy instr hinstr
    · exact Lower.initialises_assign hg hf hu' (hends.mem hfound) hstruct hconstant hy hname hstore instr
        hinstr
  · refine .inr ⟨?_, ?_⟩
    · rintro ⟨target', _, _, _, _, place', u', y, hclause', hplace', hy, hname⟩
      obtain rfl : target = target' :=
        (Expr.assign.inj (Clause.const.inj (hclause.symm.trans hclause'))).2.1
      have hsame := hplace.symm.trans hplace'
      simp only [Prod.mk.injEq, Except.ok.injEq] at hsame
      obtain ⟨rfl, -⟩ := hsame
      exact hsettled ⟨y, hy, hname⟩
    · have hregister : ∀ y, (Scope.start p.before).ground.Settles place.slot y →
          isRegisterName y.asmName = true := fun y hy => by
        by_contra hname
        exact hsettled ⟨y, hy, by simpa using hname⟩
      obtain ⟨instr, hinstr, hmisplaced⟩ :=
        Lower.misplaced_assign hg hf hu' hends hconstant hfound hregister hstore
      exact ⟨instr, (hcode instr).mpr (List.mem_append_right _ hinstr), hmisplaced⟩

end Passage

/-! ## Programs -/

/-- A line that is done before the program starts, as it should be: it gives a known value to a variable
that is declared and is no scratch register. -/
def Assembly.Initialises (a : Assembly) (instr : Instr) : Prop :=
  ∃ name, ∃ w : Word, instr = .setImmediate name (Hex.ofWord w) ∧ .declare name ∈ a.header ∧
    isRegisterName name = false

theorem Lower.Misplaced.not_initialises {instr : Instr} (h : Lower.Misplaced instr) (a : Assembly) :
    ¬ a.Initialises instr := by
  rintro ⟨name, w, heq, -, hname⟩
  simp [h name _ heq] at hname

theorem Program.Lowers.leads {program : Program} {s t : Session} {ps : List Passage}
    (h : program.Lowers s ps t) : ∀ p ∈ ps, s.Leads p.before :=
  (keeps (P := s.Leads) (fun u hu => hu.trans (.move (.number u)))
    (fun u asmName hu => hu.trans (.move (.declared u asmName))) h
    (fun p _ hp => hp.trans (Clause.leads p.gives)) (.refl s)).2

namespace Compilation

variable {program : Program} {c : Compiled}

theorem exists_in_table (r : Compilation program c) {s : Session} (h : r.built.Leads s) {x : Slot}
    (hx : x ∈ s.table.slots) : ∃ y ∈ c.table.slots, y.asmName = x.asmName ∧ y.kind = x.kind := by
  have hbare : s.table.bare = r.final.table.bare :=
    h.bare.trans (r.leads_emitted.trans r.leads_final).bare.symm
  obtain ⟨y, hy, hname, hkind, -⟩ := Table.exists_of_bare hbare hx
  exact ⟨y, r.table_eq ▸ hy, hname, hkind⟩

theorem declared (r : Compilation program c) {s : Session} (h : r.built.Leads s) {x : Slot}
    (hx : x ∈ s.table.slots) (hkind : x.kind ≠ .struct) : .declare x.asmName ∈ c.assembly.header := by
  obtain ⟨y, hy, hname, hk⟩ := r.exists_in_table h hx
  have hone := r.count_declare_eq_one hy (hk.trans_ne hkind)
  rw [hname] at hone
  exact List.count_pos_iff.mp (by omega)

theorem tidy (r : Compilation program c) {s : Session} (h : r.built.Leads s)
    (hwords : ∀ x ∈ c.table.slots, isRegisterName x.asmName = true → x.kind.isRegular = true)
    (hlimit : c.table.words ≤ wordLimit) : (Scope.start s).ground.Tidy := by
  have hbuilt := (Session.Reached.start r.start_eq).build r.build_eq
  have hlaid := h.laid ((Session.laid_start r.start_eq).build r.build_eq).table
  refine (hbuilt.emit h).tidy hlaid ?_ fun x hx hname => ?_
  · have hbare : s.table.bare = r.final.table.bare :=
      h.bare.trans (r.leads_emitted.trans r.leads_final).bare.symm
    have hnext : s.table.bare.next = r.final.table.bare.next := congrArg Table.next hbare
    have hsame : s.table.words = c.table.words := by
      rw [r.table_eq]
      exact hnext
    rw [hsame]
    exact hlimit
  · obtain ⟨y, hy, hyname, hkind⟩ := r.exists_in_table h hx
    rw [← hkind]
    exact hwords y hy (hyname ▸ hname)

theorem header_initialises (r : Compilation program c)
    (hwords : ∀ x ∈ c.table.slots, isRegisterName x.asmName = true → x.kind.isRegular = true)
    {instr : Instr} (h : .const instr ∈ c.assembly.header) : c.assembly.Initialises instr := by
  rw [r.header_eq] at h
  obtain ⟨name, hex, rfl⟩ : ∃ name hex, instr = .setImmediate name hex := by
    rcases Session.mem_header h with ⟨name, heq⟩ | ⟨name, hex, heq⟩
    · simp at heq
    · exact ⟨name, hex, Instr.const.inj heq⟩
  obtain ⟨x, hx, rfl, hcontent, hkind, hfilled⟩ := Session.filled_of_const_header h
  obtain ⟨w, rfl⟩ := (r.ready_emitted.written x hx hex hcontent).2
  refine ⟨x.asmName, w, rfl, r.declared r.leads_emitted hx hkind, ?_⟩
  rcases hfilled with harray | hready
  · obtain ⟨y, hy, hname, hyk⟩ := r.exists_in_table r.leads_emitted hx
    by_contra hregister
    have hword := hwords y hy (by simpa [hname] using hregister)
    simp [hyk, harray, Kind.isRegular] at hword
  · refine Session.autoConstants_start r.start_eq _ ?_
    have hbuilt := (Session.keeps_names_build program r.start rfl).1
    rw [r.build_eq] at hbuilt
    have hbuilt : r.built.autoConstants = r.start.autoConstants := hbuilt
    rwa [r.leads_emitted.autoConstants, hbuilt] at hready

end Compilation

/-- Every line of a program that is done before the program starts gives a known value to a declared
variable that is no scratch register, unless it is in the code of a `const` sentence whose target is
found only when the program runs, or is a scratch register. Each of those sentences has a line that is no
such initialisation. -/
theorem const_lines_initialise_unless_displaced {options : Options} {program : Program} {c : Compiled}
    (h : compile options program = .ok c)
    (hwords : ∀ x ∈ c.table.slots, isRegisterName x.asmName = true → x.kind.isRegular = true)
    (hlimit : c.table.words ≤ wordLimit) :
    ∃ (r : Compilation program c) (ps : List Passage), program.Lowers r.built ps r.final ∧
      Code.MadeOf (c.assembly.main ++ c.assembly.functions.flatMap Assembly.functionCode) ps ∧
      (∀ instr, .const instr ∈ c.assembly.code → c.assembly.Initialises instr ∨
        ∃ p ∈ ps, p.clause.isConst = true ∧ ¬ p.SetsWord ∧ .const instr ∈ p.code) ∧
      ∀ p ∈ ps, p.clause.isConst = true → ¬ p.SetsWord →
        ∃ instr, .const instr ∈ p.code ∧ ¬ c.assembly.Initialises instr := by
  obtain ⟨r⟩ := exists_compilation h
  obtain ⟨ps, hps, hcode⟩ := r.makes_main.append r.makes_functions
  have htidy (p : Passage) (hp : p ∈ ps) := r.tidy (hps.leads p hp) hwords hlimit
  refine ⟨r, ps, hps, hcode, fun instr hinstr => ?_, fun p hp hconst hword => ?_⟩
  · rw [Assembly.code, List.append_assoc, List.mem_append] at hinstr
    rcases hinstr with hheader | hinstr
    · exact .inl (r.header_initialises hwords hheader)
    rcases hcode.control _ hinstr with hmem | hcontrol
    · obtain ⟨p, hp, hmem⟩ := List.mem_flatMap.mp hmem
      by_cases hconst : p.clause.isConst = true
      · rcases Passage.const_cases (htidy p hp) hconst with ⟨-, hsets⟩ | ⟨hword, -⟩
        · obtain ⟨x, hx, hkind, hname, w, rfl⟩ := hsets instr hmem
          obtain ⟨y, hy, rfl⟩ := List.mem_map.mp hx
          have hdeclared := r.declared (hps.leads p hp) hy hkind
          exact .inl ⟨y.asmName, w, rfl, hdeclared, hname⟩
        · exact .inr ⟨p, hp, hconst, hword, hmem⟩
      · have hdone := Clause.done (htidy p hp).fair p.gives
        have hlate := hdone.late (by simpa using hconst) _ hmem
        simp [Instr.isEarly] at hlate
    · simp [Instr.isControl] at hcontrol
  · rcases Passage.const_cases (htidy p hp) hconst with ⟨hset, -⟩ | ⟨-, instr, hinstr, hmisplaced⟩
    · exact absurd hset hword
    · exact ⟨instr, hinstr, hmisplaced.not_initialises _⟩

/-- `long x, *p; const x = 7; const *p = 5;` -/
def pointerConst : Program where
  main := [
    .declaration [.keyword "long" 1, .ident "x" 1, ⟨.delimiter, ",", 1, [], ""⟩,
      ⟨.unaryOperator, "*", 1, [], ""⟩, .ident "p" 1],
    .const (.assign none (.var "x" 2) (.constant "0000000000000007" false 2) 2),
    .const (.assign none (.unary .deref (.var "p" 3) 3) (.constant "0000000000000005" false 3) 3)]

/-- The first `const` sentence initialises `x`. The second one stores through a scratch register to where
`p` points, and is found to have no word as its target. -/
theorem pointerConst_displaced :
    ∃ c, compile {} pointerConst = .ok c ∧
      (∀ x ∈ c.table.slots, isRegisterName x.asmName = true → x.kind.isRegular = true) ∧
      c.table.words ≤ wordLimit ∧
      c.assembly.main = [.const (.setImmediate "x" (Hex.ofWord 7)),
        .const (.setImmediate "r0" (Hex.ofWord 5)), .const (.set (.indirect "p" none) (.var "r0")),
        .finish] ∧
      ∃ (r : Compilation pointerConst c) (ps : List Passage), pointerConst.Lowers r.built ps r.final ∧
        ∃ p ∈ ps, p.clause.isConst = true ∧ ¬ p.SetsWord ∧
          .const (.set (.indirect "p" none) (.var "r0")) ∈ p.code := by
  have hcompiled : ((compile {} pointerConst).toOption.any fun c =>
      (∀ x ∈ c.table.slots, isRegisterName x.asmName = true → x.kind.isRegular = true) ∧
      c.table.words ≤ wordLimit ∧
      c.assembly.main = [.const (.setImmediate "x" (Hex.ofWord 7)),
        .const (.setImmediate "r0" (Hex.ofWord 5)), .const (.set (.indirect "p" none) (.var "r0")),
        .finish]) = true := by
    decide +kernel
  obtain ⟨c, hc, hcompiled⟩ := (Option.any_eq_true _ _).mp hcompiled
  obtain ⟨hwords, hlimit, hmain⟩ := of_decide_eq_true hcompiled
  have hc := eq_ok_of_toOption hc
  obtain ⟨r, ps, hps, -, hlines, -⟩ := const_lines_initialise_unless_displaced hc hwords hlimit
  refine ⟨c, hc, hwords, hlimit, hmain, r, ps, hps, ?_⟩
  have hline := hlines (.set (.indirect "p" none) (.var "r0")) (by simp [Assembly.code, hmain])
  refine hline.resolve_left ?_
  rintro ⟨name, w, heq, -⟩
  simp [Instr.setImmediate] at heq

end Flatword
