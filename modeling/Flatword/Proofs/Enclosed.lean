import Flatword.Proofs.Arguments
import Flatword.Proofs.Surround

/-!
# A step anywhere in an expression

The guarded step may stand in an index of a path, in an argument of a call, or at any other place of an
expression. The expression around it is a context with one hole.
-/

namespace Flatword

namespace Lower

variable {i n skip : Nat} {item : ArrayItem} {member : String} {header slot : Slot} {leftSide : Bool}
  {path : List Step}

open GuardedStep

variable {w : Watch} {k : GuardedStep} {f : Frame} {s t : Scope}

/-! ## Lists of values -/

inductive HostsAt (w : Watch) (k : GuardedStep) : Nat → List (Lower Lowered) → Prop
  | head {m rest} (h : Hosts w k m)
      (hrest : ∀ value ∈ rest, Idle w value) : HostsAt w k 0 (m :: rest)
  | tail {i m rest} (h : Idle w m)
      (hrest : HostsAt w k i rest) : HostsAt w k (i + 1) (m :: rest)

theorem HostsAt.idle_of_mem_take {values : List (Lower Lowered)} (h : HostsAt w k i values) (hn : n ≤ i) :
    ∀ value ∈ values.take n, Idle w value := by
  induction h generalizing n with
  | head => simp [Nat.le_zero.mp hn]
  | @tail i m rest hm _ ih =>
    obtain _ | n := n
    · simp
    · simpa using ⟨hm, ih (by omega)⟩

/-! ## Calls -/

theorem fronts_passArgument (name : String) : Fronts (· ++ ·) fun value => passArgument value name := by
  intro m
  simp [passArgument]

theorem passArguments_cons (value : Lower Lowered) (values : List (Lower Lowered)) (name : String)
    (names : List String) : passArguments (value :: values) (name :: names) =
      passArguments values names >>= fun later => (later ++ ·) <$> passArgument value name := by
  simp [passArguments]

theorem exists_tallied {values : List (Lower Lowered)} (h : ∀ value ∈ values, Idle w value) :
    ∃ n, Tallied w.leave values n := by
  induction values with
  | nil => exact ⟨0, .nil⟩
  | cons value values ih =>
    obtain ⟨n, hn⟩ := ih fun value hvalue => h value (by simp [hvalue])
    obtain ⟨k, hk⟩ := h value (by simp)
    exact ⟨n + k, .cons hk hn⟩

section Calls

variable (hg : w.leave.Fair) {value : Lower Lowered} {values : List (Lower Lowered)} {name : String}
  {names : List String}

include hg

theorem lays_passArgument (hvalue : Idle w value)
    (hwrites : ∀ y ∈ w.ground.slots, y.asmName = name → w.leave.Takes y) :
    Lays w (Bystander w.name fun _ => False) id (fun _ => True) (passArgument value name) := by
  obtain ⟨n, hvalues⟩ := hvalue
  exact lays_of_pens fun j => (pens_passArgument hg hvalues hwrites j).mono fun _ _ _ h =>
    ⟨⟨_, _, h⟩, trivial⟩

theorem lays_passArguments (hvalues : ∀ value ∈ values, Idle w value)
    (hlength : names.length = values.length)
    (hwrites : ∀ y ∈ w.ground.slots, y.asmName ∈ names → w.leave.Takes y) :
    Lays w (Bystander w.name fun _ => False) id (fun _ => True) (passArguments values names) := by
  obtain ⟨n, htallied⟩ := exists_tallied hvalues
  exact lays_of_pens fun j => (pens_passArguments hg htallied hlength hwrites j).mono fun _ _ _ h =>
    ⟨⟨_, _, h⟩, trivial⟩

theorem hosts_passArguments (h : HostsAt w k i values) (hlength : names.length = values.length)
    (hwrites : ∀ y ∈ w.ground.slots, y.asmName ∈ names → w.leave.Takes y) :
    Lays w (k.Splits w.name fun _ => False) id (fun _ => True) (passArguments values names) := by
  induction h generalizing names with
  | @head m rest hm hrest =>
    obtain _ | ⟨name, names⟩ := names
    · simp at hlength
    rw [passArguments_cons]
    have hnames : names.length = rest.length := by simpa using hlength
    have hlater := lays_passArguments hg hrest hnames fun y hy hname => hwrites y hy (by simp [hname])
    have hhead := (fronts_passArgument name).hosts_test hm fun slot hslot =>
      lays_passArgument hg (idle_pure hslot) fun y hy hname => hwrites y hy (by simp [hname])
    exact hlater.bind (fun _ _ => hhead) (fun _ _ => rfl) (fun _ _ _ _ => trivial) fun hq hcodes =>
      hcodes.after hq
  | @tail i m rest hm hrest ih =>
    obtain _ | ⟨name, names⟩ := names
    · simp at hlength
    rw [passArguments_cons]
    have hnames : names.length = rest.length := by simpa using hlength
    have hlater := ih hnames fun y hy hname => hwrites y hy (by simp [hname])
    have hmisses : ∀ y ∈ w.ground.slots, y.asmName = name → w.leave.Takes y := fun y hy hname =>
      hwrites y hy (by simp [hname])
    have hhead := lays_passArgument hg hm hmisses
    exact hlater.bind (fun _ _ => hhead) (fun _ _ => rfl) (fun _ _ _ _ => trivial) fun hcodes hq =>
      hcodes.before hq

theorem spares_saved (hs : w.leave.Tracks s) :
    Code.Spares ((s.liveValues.map Slot.asmName).reverse.map Instr.push) w.name ∧
      Code.Spares ((s.liveValues.map Slot.asmName).map Instr.pop) w.name := by
  constructor <;> intro instr hinstr <;> obtain ⟨x, hx, rfl⟩ := List.mem_map.mp hinstr
  · simp [Instr.written?]
  · simpa [Instr.written?] using (dest_liveValues hg hs (.refl s) x hx).writable

theorem hosts_lowerCall (h : HostsAt w k i values)
    (hwrites : ∀ signature ∈ w.ground.functions, signature.name = name →
      ∀ y ∈ w.ground.slots, y.asmName ∈ signature.arguments → w.leave.Takes y) :
    Hosts w k (lowerCall name values) := by
  intro f s v t hf hs hv
  obtain ⟨sig, passed, u, result, hsig, hlength, hpassed, hresult, hslot, hcode⟩ := lowerCall_gives hv
  have hfunctions : s.session.functions = w.ground.functions := congrArg Ground.functions hs.ground
  have hmem : sig ∈ w.ground.functions := hfunctions ▸ List.mem_of_find?_eq_some hsig
  have hname : sig.name = name := by simpa using List.find?_some hsig
  obtain ⟨hu, -, q₁, hq₁, hsplits⟩ := hosts_passArguments hg h hlength (hwrites sig hmem hname) hf hs hpassed
  have hfetch := tame_of_quiet (quiet_fetchResult hg sig.returnType)
  obtain ⟨ht, hbacks, q₂, hq₂, hplain⟩ := hfetch hf hu hresult
  have hbacks : w.ground.Backs v.slot := hslot ▸ hbacks
  refine ⟨ht, hbacks, q₁ ++ q₂, by rw [hq₂, hq₁, List.append_assoc], ?_⟩
  obtain ⟨hpush, hpop⟩ := spares_saved hg hu
  have hsuf : Code.Spares ((u.liveValues.map Slot.asmName).reverse.map Instr.push ++
      [.call (Assembly.entry name)] ++ result.code ++ (u.liveValues.map Slot.asmName).map Instr.pop) w.name :=
    Code.spares_append.mpr ⟨Code.spares_append.mpr ⟨Code.spares_append.mpr ⟨hpush, by simp [Instr.written?]⟩,
      hplain.spares⟩, hpop⟩
  have hdone := (hsplits.enclose (F := fun _ => False) [] _ Code.spares_nil hsuf
    (fun _ => False.elim) (by simp)).encloseQueue Code.spares_nil hplain.queue
  rw [hcode]
  simpa using hdone

end Calls

/-! ## Paths -/

inductive PathHosts (w : Watch) (k : GuardedStep) : Nat → List Step → Prop
  | here {m rest} (h : Hosts w k m)
      (hrest : ∀ value, Step.index value ∈ rest → Idle w value) : PathHosts w k 0 (.index m :: rest)
  | there {i step rest} (hstep : ∀ value, step = .index value → Idle w value)
      (h : PathHosts w k i rest) : PathHosts w k (i + 1) (step :: rest)

theorem PathHosts.leadingIndexes (h : PathHosts w k i path) :
    HostsAt w k i (leadingIndexes path) ∨
      (Lower.leadingIndexes path).length ≤ i ∧ ∀ value ∈ Lower.leadingIndexes path, Idle w value := by
  induction h with
  | here h hrest => exact .inl (.head h fun value hvalue => hrest value (mem_of_mem_leadingIndexes hvalue))
  | @there i step rest hstep h ih =>
    cases step with
    | index value =>
      have hvalue := hstep value rfl
      rcases ih with hhosts | ⟨hlength, hidle⟩
      · exact .inl (.tail hvalue hhosts)
      · refine .inr ⟨by simpa [Lower.leadingIndexes] using hlength, ?_⟩
        simpa [Lower.leadingIndexes] using ⟨hvalue, hidle⟩
    | member | arrow => exact .inr (by simp [Lower.leadingIndexes])

/-- A sum of indexes with code in front of it. -/
def IndexSum.after (code : Code) (sum : IndexSum) : IndexSum :=
  { sum with code := code ++ sum.code }

theorem IndexSum.after_eq (code : Code) :
    IndexSum.after code = fun sum => { sum with code := code ++ sum.code } := rfl

theorem addIndex_eq (sum : IndexSum) (dimension stride : Word) (m : Lower Lowered) :
    sum.addIndex dimension stride m = m >>= fun v => IndexSum.after (sum.code ++ v.code) <$>
      IndexSum.addIndex { sum with code := [] } dimension stride (pure ⟨v.slot, []⟩) := by
  refine bind_congr fun v => ?_
  simp only [IndexSum.addIndex, IndexSum.addStored, pure_bind, IndexSum.after_eq]
  split
  · simp only [ge_iff_le, bind_pure_comp, List.append_assoc, List.append_nil, map_bind]
    refine bind_congr fun value => ?_
    split <;> simp
  · simp only [List.append_assoc, bind_pure_comp, List.append_nil, List.nil_append, map_bind]
    refine bind_congr fun term => ?_
    split <;> simp

theorem addIndexes_eq (sum : IndexSum) (dimensions strides : List Word) (indexes : List (Lower Lowered)) :
    sum.addIndexes dimensions strides indexes = IndexSum.after sum.code <$>
      IndexSum.addIndexes { sum with code := [] } dimensions strides indexes := by
  fun_induction IndexSum.addIndexes sum dimensions strides indexes with
  | case1 sum dimension dimensions stride strides index indexes ih =>
    rw [IndexSum.addIndexes, addIndex_eq, addIndex_eq { sum with code := [] }]
    simp only [bind_assoc, map_bind, bind_map_left]
    refine bind_congr fun v => bind_congr fun part => ?_
    rw [ih, ih (IndexSum.after _ part)]
    simp [IndexSum.after_eq]
  | case2 sum => 
    rw [IndexSum.addIndexes]
    · simp [IndexSum.after_eq]
    · assumption

section Paths

variable (hg : w.leave.Fair) {dimension stride : Word} {dimensions strides : List Word} {sum : IndexSum}
  {index : Lower Lowered} {indexes : List (Lower Lowered)}

include hg

theorem tame_addIndex (hsum : sum.Backed w.leave) (hindex : Idle w index) :
    Lays w (Bystander w.name fun _ => False) IndexSum.code (IndexSum.Backed w.leave)
      (IndexSum.addIndex { sum with code := [] } dimension stride index) := by
  obtain ⟨n, hvalues⟩ := hindex
  refine lays_of_pens fun j => (pens_addIndex hg _ dimension stride hvalues j).mono fun _ _ _ h => ?_
  have hsummed := h j 0 (by simp) ⟨hsum, .of_straight Leave.keeps_nil⟩
  exact ⟨⟨_, _, hsummed.code⟩, hsummed.backed⟩

theorem hosts_addIndex (hsum : sum.Backed w.leave) (hindex : Hosts w k index) :
    Lays w (k.Splits w.name fun _ => False) IndexSum.code (IndexSum.Backed w.leave)
      (IndexSum.addIndex { sum with code := [] } dimension stride index) := by
  rw [addIndex_eq]
  exact hindex.bind (fun v hv => tame_addIndex hg hsum (idle_pure hv)) (fun _ _ => rfl)
    (fun _ _ _ h => h) fun hv hr => hv.before hr

omit hg in
theorem addIndexes_cons (sum : IndexSum) (dimension stride : Word) (index : Lower Lowered) :
    IndexSum.addIndexes sum (dimension :: dimensions) (stride :: strides) (index :: indexes) =
      sum.addIndex dimension stride index >>= fun part => IndexSum.after part.code <$>
        IndexSum.addIndexes { part with code := [] } dimensions strides indexes := by
  rw [IndexSum.addIndexes]
  exact bind_congr fun part => addIndexes_eq part dimensions strides indexes

theorem tame_addIndexes (hsum : sum.Backed w.leave)
    (hindexes : ∀ index ∈ indexes.take dimensions.length, Idle w index) :
    Lays w (Bystander w.name fun _ => False) IndexSum.code (IndexSum.Backed w.leave)
      (IndexSum.addIndexes { sum with code := [] } dimensions strides indexes) := by
  induction dimensions generalizing sum strides indexes with
  | nil =>
    rw [IndexSum.addIndexes]
    · exact lays_pure hsum bystander_nil
    · simp
  | cons dimension dimensions ih =>
    obtain _ | ⟨stride, strides⟩ := strides
    · rw [IndexSum.addIndexes]
      · exact lays_pure hsum bystander_nil
      · simp
    obtain _ | ⟨index, indexes⟩ := indexes
    · rw [IndexSum.addIndexes]
      · exact lays_pure hsum bystander_nil
      · simp
    rw [addIndexes_cons]
    have hrest : ∀ index ∈ indexes.take dimensions.length, Idle w index := fun index h =>
      hindexes index (by simp [h])
    exact (tame_addIndex hg hsum (hindexes index (by simp))).bind (fun part hpart => ih hpart hrest)
      (fun _ _ => rfl) (fun _ _ _ h => h) fun hv hr => hv.append hr

theorem hosts_addIndexes (hsum : sum.Backed w.leave) (h : HostsAt w k i indexes)
    (hi : i < dimensions.length) (hstrides : dimensions.length ≤ strides.length) :
    Lays w (k.Splits w.name fun _ => False) IndexSum.code (IndexSum.Backed w.leave)
      (IndexSum.addIndexes { sum with code := [] } dimensions strides indexes) := by
  induction h generalizing sum dimensions strides with
  | @head index rest hindex hrest =>
    obtain _ | ⟨dimension, dimensions⟩ := dimensions
    · simp at hi
    obtain _ | ⟨stride, strides⟩ := strides
    · simp at hstrides
    rw [addIndexes_cons]
    have htake : ∀ index ∈ rest.take dimensions.length, Idle w index := fun index h =>
      hrest index (List.mem_of_mem_take h)
    exact (hosts_addIndex hg hsum hindex).bind (fun part hpart => tame_addIndexes hg hpart htake)
      (fun _ _ => rfl) (fun _ _ _ h => h) fun hv hr => hv.before hr
  | @tail i index rest hindex hrest ih =>
    obtain _ | ⟨dimension, dimensions⟩ := dimensions
    · simp at hi
    obtain _ | ⟨stride, strides⟩ := strides
    · simp at hstrides
    rw [addIndexes_cons]
    exact (tame_addIndex hg hsum hindex).bind
      (fun part hpart => ih hpart (by simpa using hi) (by simpa using hstrides)) (fun _ _ => rfl)
      (fun _ _ _ h => h) fun hv hr => hr.after hv

omit hg in
theorem summedCell_eq (leftSide : Bool) (header : Slot) (item : ArrayItem) (strides : List Word)
    (sum : IndexSum) : summedCell leftSide header item strides sum =
      Lowered.after sum.code <$> summedCell leftSide header item strides { sum with code := [] } := by
  unfold summedCell
  cases sum.stored <;> simp [Lowered.after_eq]

theorem tame_summedCell (hheader : w.ground.Backs header) (hsum : sum.Backed w.leave) :
    Tame w (summedCell leftSide header item strides { sum with code := [] }) := by
  refine tame_of_quiet ((quiet_summedCell hg leftSide header item strides { sum with code := [] }).mono
    fun z v _ h => ?_)
  obtain ⟨hbacks, rest, hrest, hcode⟩ := h hheader hsum
  exact ⟨hbacks, by rw [hcode]; exact hrest⟩

theorem lays_summedCell {m : Lower IndexSum} {P : Code → Code → Prop} (hheader : w.ground.Backs header)
    (hm : Lays w P IndexSum.code (IndexSum.Backed w.leave) m)
    (hP : ∀ {c q c' q'}, P c q → Bystander w.name (fun _ => False) c' q' → P (c ++ c') (q ++ q')) :
    Lays w P Lowered.code (fun v => w.ground.Backs v.slot)
      (m >>= summedCell leftSide header item strides) := by
  rw [funext (summedCell_eq leftSide header item strides)]
  exact hm.bind (fun sum hsum => tame_summedCell hg hheader hsum) (fun _ _ => rfl) (fun _ _ _ h => h) hP

theorem indexArray_laid {cell : Lowered} {taken : Nat} (hheader : w.ground.Backs header)
    (hindexes : HostsAt w k i indexes ∨ indexes.length ≤ i ∧ ∀ index ∈ indexes, Idle w index)
    (hf : f.function = w.function) (hs : w.leave.Tracks s)
    (h : Gives (indexArray leftSide header indexes) f s (cell, taken) t) :
    w.leave.Tracks t ∧ w.ground.Backs cell.slot ∧ 0 < taken ∧ ∃ queue, t.post = s.post ++ queue ∧
      (taken ≤ i ∧ Bystander w.name (fun _ => False) cell.code queue ∨
        i < taken ∧ k.Splits w.name (fun _ => False) cell.code queue) := by
  simp only [indexArray, gives_bind, gives_get, gives_orFail] at h
  obtain ⟨_, _, ⟨rfl, rfl⟩, shape, _, ⟨hshape, rfl⟩, item, _, ⟨hitem, rfl⟩, h⟩ := h
  have hcatalog : s.session.catalog = w.ground.catalog := congrArg Ground.catalog hs.ground
  obtain ⟨hdimensions, hstrides⟩ := hg.shapes shape (hcatalog ▸ Catalog.mem_of_bind_findArray? hshape)
  split at h
  · exact absurd (gives_bind.mp h).choose_spec.choose_spec.1 gives_fail
  next hlength =>
  simp only [gives_bind, gives_pure, Prod.mk.injEq] at h
  obtain ⟨sum, s₁, hsum, cell, t, hcell, ⟨rfl, rfl⟩, rfl⟩ := h
  have hseats : IndexSum.Backed w.leave {} := by simp [IndexSum.Backed]
  have hcell := gives_bind.mpr ⟨sum, s₁, hsum, hcell⟩
  have htame (hidle : ∀ index ∈ indexes.take shape.dimensions.length, Idle w index)
      (hi : shape.dimensions.length ≤ i) : w.leave.Tracks t ∧ w.ground.Backs cell.slot ∧ 0 < shape.dimensions.length ∧
        ∃ queue, t.post = s.post ++ queue ∧
          (shape.dimensions.length ≤ i ∧ Bystander w.name (fun _ => False) cell.code queue ∨
            i < shape.dimensions.length ∧ k.Splits w.name (fun _ => False) cell.code queue) := by
    obtain ⟨ht, hseat, queue, hqueue, hplain⟩ := lays_summedCell hg hheader
      (tame_addIndexes hg hseats hidle) (fun hv hr => hv.append hr) hf hs hcell
    exact ⟨ht, hseat, hdimensions, queue, hqueue, .inl ⟨hi, hplain⟩⟩
  rcases hindexes with hhosts | ⟨hi, hidle⟩
  · by_cases hi : i < shape.dimensions.length
    · obtain ⟨ht, hseat, queue, hqueue, hsplits⟩ := lays_summedCell hg hheader
        (hosts_addIndexes hg hseats hhosts hi hstrides) (fun hv hr => hv.before hr) hf hs hcell
      exact ⟨ht, hseat, hdimensions, queue, hqueue, .inr ⟨hi, hsplits⟩⟩
    · exact htame (hhosts.idle_of_mem_take (by omega)) (by omega)
  · exact htame (fun index h => hidle index (List.mem_of_mem_take h)) (by omega)

theorem tame_indexPointer (hslot : w.ground.Backs slot) (hindex : Idle w index) :
    Tame w (indexPointer slot index) := by
  obtain ⟨n, hvalues⟩ := hindex
  exact lays_of_pens fun j => (pens_indexPointer hg slot hvalues j).mono fun _ _ _ h =>
    ⟨⟨_, _, (h hslot).2⟩, (h hslot).1⟩

theorem hosts_indexPointer (hslot : w.ground.Backs slot) (hindex : Hosts w k index) :
    Hosts w k (indexPointer slot index) := by
  intro f s v t hf hs h
  unfold indexPointer at h
  split at h
  · exact absurd (gives_bind.mp h).choose_spec.choose_spec.1 gives_fail
  simp only [gives_bind] at h
  obtain ⟨base, s₁, hbase, x, s₂, hx, h⟩ := h
  have hinto := tame_of_quiet ((quiet_intoBase hg slot).mono fun _ _ _ h => h hslot)
  obtain ⟨hs₁, hseat, q₁, hq₁, hplain⟩ := hinto hf hs hbase
  obtain ⟨hs₂, hxseat, q₂, hq₂, hsplits⟩ := hindex hf hs₁ hx
  have hcode := hsplits.after hplain
  have hcell {offset : Offset} :
      w.ground.Backs { base.slot with type := base.slot.type.element, offset := some offset } :=
    hseat.congr rfl rfl rfl
  split at h
  · simp only [gives_bind, gives_pure, constantWord, gives_orFail] at h
    obtain ⟨value, _, ⟨-, rfl⟩, rfl, rfl⟩ := h
    exact ⟨hs₂, hcell, q₁ ++ q₂, by rw [hq₂, hq₁, List.append_assoc], hcode⟩
  · simp only [gives_bind, gives_pure, gives_orFail] at h
    obtain ⟨plain, s₃, hindexed, address, _, ⟨-, rfl⟩, rfl, rfl⟩ := h
    have hplainIndex := tame_of_quiet ((quiet_plainIndex hg x.slot).mono fun _ _ _ h => h hxseat)
    obtain ⟨hs₃, -, q₃, hq₃, hplain₃⟩ := hplainIndex hf hs₂ hindexed
    refine ⟨hs₃, hcell, q₁ ++ q₂ ++ q₃, ?_, hcode.before hplain₃⟩
    rw [hq₃, hq₂, hq₁, List.append_assoc, List.append_assoc, List.append_assoc]

theorem tame_memberOf (hslot : w.ground.Backs slot) : Tame w (memberOf leftSide slot member) :=
  tame_of_quiet ((quiet_memberOf hg leftSide slot member).mono fun _ _ _ h => h hslot)

theorem tame_arrowMember (hslot : w.ground.Backs slot) : Tame w (arrowMember slot member) :=
  tame_of_quiet ((quiet_arrowMember hg slot member).mono fun _ _ _ h => h hslot)

omit hg in
theorem followAfter_drop (leftSide : Bool) (skip : Nat) (here : Lowered) (path : List Step) :
    followAfter leftSide skip here path = followAfter leftSide 0 here (path.drop skip) := by
  induction path generalizing skip with
  | nil => rw [List.drop_nil, followAfter, followAfter]
  | cons step rest ih =>
    cases skip with
    | zero => rfl
    | succ skip =>
      rw [followAfter, List.drop_succ_cons]
      exact ih skip

omit hg in
theorem followAfter_eq (leftSide : Bool) (skip : Nat) (here : Lowered) (path : List Step) :
    followAfter leftSide skip here path =
      Lowered.after here.code <$> followAfter leftSide skip ⟨here.slot, []⟩ path := by
  induction path generalizing skip here with
  | nil => simp [followAfter, Lowered.after_eq]
  | cons step rest ih =>
    have hnext (skip : Nat) (v : Lowered) :
        followAfter leftSide skip ⟨v.slot, here.code ++ v.code⟩ rest =
          Lowered.after here.code <$> followAfter leftSide skip ⟨v.slot, v.code⟩ rest := by
      rw [ih, ih skip ⟨v.slot, v.code⟩]
      simp [Lowered.after_eq]
    cases skip with
    | succ skip =>
      rw [followAfter, followAfter]
      exact ih skip here
    | zero =>
      cases step with
      | index value =>
        rw [followAfter, followAfter]
        split
        · rw [map_bind]
          exact bind_congr fun found => hnext _ found.1
        · rw [map_bind]
          exact bind_congr fun cell => hnext 0 cell
      | member name | arrow name =>
        rw [followAfter, followAfter, map_bind]
        exact bind_congr fun member => hnext 0 member

omit hg in
theorem exists_counted (h : ∀ value, Step.index value ∈ path → Idle w value) :
    ∃ n, Counted w.leave path n := by
  induction path with
  | nil => exact ⟨0, .nil⟩
  | cons step rest ih =>
    obtain ⟨n, hn⟩ := ih fun value hvalue => h value (by simp [hvalue])
    cases step with
    | index value =>
      obtain ⟨k, hk⟩ := h value (by simp)
      exact ⟨k + n, .index hk hn⟩
    | member name => exact ⟨n, .member hn⟩
    | arrow name => exact ⟨n, .arrow hn⟩

theorem tame_followAfter (hslot : w.ground.Backs slot)
    (hpath : ∀ value, Step.index value ∈ path.drop skip → Idle w value) :
    Tame w (followAfter leftSide skip ⟨slot, []⟩ path) := by
  rw [followAfter_drop]
  obtain ⟨n, hcounted⟩ := exists_counted hpath
  refine lays_of_pens fun j => (pens_followAfter hg leftSide 0 ⟨slot, []⟩ hcounted j).mono fun _ _ _ h => ?_
  obtain ⟨hbacks, code, hcode, hmade⟩ := h hslot
  rw [List.nil_append] at hcode
  exact ⟨⟨_, _, hcode ▸ hmade⟩, hbacks⟩

omit hg in
theorem PathHosts.idle_of_mem_drop (h : PathHosts w k i path) (hn : i < n) :
    ∀ value, Step.index value ∈ path.drop n → Idle w value := by
  induction h generalizing n with
  | here h hrest =>
    obtain _ | n := n
    · simp at hn
    · exact fun value hvalue => hrest value (List.mem_of_mem_drop hvalue)
  | there hstep h ih =>
    obtain _ | n := n
    · simp at hn
    · exact ih (by omega)

theorem hosts_followAfter (hslot : w.ground.Backs slot) (hpath : PathHosts w k i path)
    (hskip : skip ≤ i) : Hosts w k (followAfter leftSide skip ⟨slot, []⟩ path) := by
  induction path generalizing i skip slot with
  | nil => cases hpath
  | cons step rest ih =>
    -- The next place of the path, and the rest of the path from there.
    have heq (m : Lower Lowered) :
        (m >>= fun v => followAfter leftSide 0 ⟨v.slot, [] ++ v.code⟩ rest) =
          m >>= fun v => Lowered.after v.code <$> followAfter leftSide 0 ⟨v.slot, []⟩ rest :=
      bind_congr fun v => followAfter_eq leftSide 0 v rest
    have hfirst {m : Lower Lowered} (hm : Hosts w k m)
        (hrest : ∀ value, Step.index value ∈ rest.drop 0 → Idle w value) :
        Hosts w k (m >>= fun v => followAfter leftSide 0 ⟨v.slot, [] ++ v.code⟩ rest) := by
      rw [heq]
      exact hm.bind (fun v hv => tame_followAfter hg hv hrest) (fun _ _ => rfl) (fun _ _ _ h => h)
        fun hv hr => hv.before hr
    have hlater {m : Lower Lowered} {i : Nat} (hm : Tame w m) (hrest : PathHosts w k i rest) :
        Hosts w k (m >>= fun v => followAfter leftSide 0 ⟨v.slot, [] ++ v.code⟩ rest) := by
      rw [heq]
      exact hm.bind (fun v hv => ih hv hrest (Nat.zero_le _)) (fun _ _ => rfl) (fun _ _ _ h => h)
        fun hv hr => hr.after hv
    cases skip with
    | succ skip =>
      rw [followAfter]
      cases hpath with
      | here => simp at hskip
      | there hstep h => exact ih hslot h (by omega)
    | zero =>
      rcases step with value | name | name
      · rw [followAfter]
        split
        · intro f s v t hf hs hv
          obtain ⟨⟨cell, taken⟩, s₁, hcell, hv⟩ := gives_bind.mp hv
          have hindexes := hpath.leadingIndexes
          obtain ⟨hs₁, hseat, htaken, q₁, hq₁, hcodes⟩ := indexArray_laid hg hslot hindexes hf hs hcell
          dsimp only at hv
          rw [List.nil_append, followAfter_eq, ← bind_pure_comp, gives_bind] at hv
          obtain ⟨last, _, hlast, hv⟩ := hv
          obtain ⟨rfl, rfl⟩ := gives_pure.mp hv
          -- The step is in one of the indexes of this array, or the path has it later.
          rcases hcodes with ⟨hi, hplain⟩ | ⟨hi, hsplits⟩
          · cases hpath with
            | here => omega
            | there hstep h =>
              obtain ⟨ht, hlastSeat, q₂, hq₂, hsplits⟩ := ih hseat h (by omega) hf hs₁ hlast
              exact ⟨ht, hlastSeat, q₁ ++ q₂, by rw [hq₂, hq₁, List.append_assoc], hsplits.after hplain⟩
          · have hidle : ∀ value, Step.index value ∈ rest.drop (taken - 1) → Idle w value := by
              have hdrop := hpath.idle_of_mem_drop hi
              obtain ⟨n, rfl⟩ := Nat.exists_eq_add_of_lt htaken
              simpa using hdrop
            obtain ⟨ht, hlastSeat, q₂, hq₂, hplain⟩ := tame_followAfter hg hseat hidle hf hs₁ hlast
            exact ⟨ht, hlastSeat, q₁ ++ q₂, by rw [hq₂, hq₁, List.append_assoc], hsplits.before hplain⟩
        · cases hpath with
          | here h hrest => exact hfirst (hosts_indexPointer hg hslot h) hrest
          | there hstep h => exact hlater (tame_indexPointer hg hslot (hstep value rfl)) h
      · rw [followAfter]
        cases hpath with
        | there hstep h => exact hlater (tame_memberOf hg hslot) h
      · rw [followAfter]
        cases hpath with
        | there hstep h => exact hlater (tame_arrowMember hg hslot) h

theorem hosts_lowerLookup {name : String} (hpath : PathHosts w k i path) :
    Hosts w k (lowerLookup name path) := by
  intro f s v t hf hs h
  simp only [lowerLookup, gives_bind, gives_read] at h
  obtain ⟨_, _, ⟨rfl, rfl⟩, slot, s₁, hslot, h⟩ := h
  have hlookup : Lays w (Bystander w.name fun _ => False) (fun _ => []) w.ground.Backs (lookup name) :=
    lays_of_quiet ((quiet_lookup name).mono fun _ _ _ h => ⟨Leave.keeps_nil, h.backs⟩)
  obtain ⟨hs₁, hbacks, q₁, hq₁, hplain⟩ := hlookup hf hs hslot
  have hempty : path.isEmpty = false := by cases hpath <;> rfl
  rw [hempty] at h
  obtain ⟨ht, hseat, q₂, hq₂, hsplits⟩ := hosts_followAfter hg hbacks hpath (Nat.zero_le i)
    (f := { f with leftSide := false }) hf hs₁ (gives_onSide.mp h)
  exact ⟨ht, hseat, q₁ ++ q₂, by rw [hq₂, hq₁, List.append_assoc], hsplits.after hplain⟩

end Paths

/-! ## Expressions -/

structure Lowering.Hosting (w : Watch) (k : GuardedStep) (l : Lowering) : Prop where
  value : Hosts w k l.value
  branch : HostsBranch w k l.branch

namespace Lowering.Hosting

theorem ofValue (hg : w.leave.Fair) {value : Lower Lowered} (h : Hosts w k value) :
    (Lowering.ofValue value).Hosting w k :=
  ⟨h, hosts_branchValue hg h⟩

theorem ofBranch (hg : w.leave.Fair) {branch : Branch → Lower Code} (h : HostsBranch w k branch) :
    (Lowering.ofBranch branch).Hosting w k :=
  ⟨hosts_materialize hg h, h⟩

theorem ofUnary (hg : w.leave.Fair) {op : UnaryOp} {isLookup : Bool} {operand : Lowering}
    (h : operand.Hosting w k) : (Lowering.ofUnary op isLookup operand).Hosting w k := by
  cases op with
  | not =>
    refine ofBranch hg fun b f s code t hf hs hcode => ?_
    obtain ⟨ht, -, queue, hqueue, hsplits⟩ := h.branch b.swap hf hs hcode
    exact ⟨ht, trivial, queue, hqueue, hsplits.mono fun _ => Branch.exits_swap⟩
  | addressOf =>
    refine ofValue hg ?_
    split
    · exact hosts_lowerAddressOf hg h.value
    · exact lays_fail
  | castVoid => exact ofValue hg (hosts_lowerDiscard h.value)
  | deref => exact ofValue hg (hosts_lowerDeref hg h.value)
  | neg => exact ofValue hg (hosts_lowerNegate hg h.value)
  | bitNot => exact ofValue hg (hosts_lowerComplement hg h.value)

end Lowering.Hosting

theorem PathHosts.append {front path : List Step} (h : PathHosts w k i path)
    (hfront : ∀ value, Step.index value ∈ front → Idle w value) :
    PathHosts w k (front.length + i) (front ++ path) := by
  induction front with
  | nil => simpa using h
  | cons step front ih =>
    have hrest := ih fun value hvalue => hfront value (by simp [hvalue])
    rw [List.length_cons, Nat.add_right_comm]
    exact .there (fun value heq => hfront value (by simp [heq])) hrest

theorem HostsAt.append {front values : List (Lower Lowered)} (h : HostsAt w k i values)
    (hfront : ∀ value ∈ front, Idle w value) : HostsAt w k (front.length + i) (front ++ values) := by
  induction front with
  | nil => simpa using h
  | cons value front ih =>
    have hrest := ih fun value hvalue => hfront value (by simp [hvalue])
    rw [List.length_cons, Nat.add_right_comm]
    exact .tail (hfront value (by simp)) hrest

end Lower

namespace Expr

open Lower

variable {w : Watch}

theorem pathSteps_append (front back : List Access) :
    pathSteps (front ++ back) = pathSteps front ++ pathSteps back := by
  induction front with
  | nil => rfl
  | cons access front ih => cases access <;> simp [pathSteps, ih]

theorem argValues_append (front back : List Expr) :
    argValues (front ++ back) = argValues front ++ argValues back := by
  induction front with
  | nil => rfl
  | cons arg front ih => simp [argValues, ih]

section Idle

variable (hg : w.leave.Fair)

include hg

theorem idle_lowering {e : Expr} (h : Passes w.leave e.targets e.callees) : Idle w e.lowering.value :=
  ⟨_, (links_lowering hg e h).value⟩

theorem idle_condition {e : Expr} (h : Passes w.leave e.targets e.callees) : IdleBranch w e.lowering.branch :=
  ⟨_, (links_lowering hg e h).branch⟩

theorem idle_pathSteps {path : List Access} (h : Passes w.leave (pathTargets path) (pathCallees path)) :
    ∀ value, Step.index value ∈ pathSteps path → Idle w value := by
  induction path with
  | nil => simp [pathSteps]
  | cons access rest ih =>
    cases access with
    | index index =>
      have hrest := ih h.right
      simp only [pathSteps, List.mem_cons, Step.index.injEq]
      rintro value (rfl | hvalue)
      · exact idle_lowering hg h.left
      · exact hrest value hvalue
    | member | arrow => simpa [pathSteps] using ih h

theorem idle_argValues {args : List Expr} (h : Passes w.leave (argsTargets args) (argsCallees args)) :
    ∀ value ∈ argValues args, Idle w value := by
  induction args with
  | nil => simp [argValues]
  | cons arg rest ih => simpa [argValues] using ⟨idle_lowering hg h.left, ih h.right⟩

end Idle

end Expr

/-! ## Contexts -/

/-- An expression with a hole in it. -/
inductive Context where
  | hole
  | unary (op : UnaryOp) (operand : Context) (line : Line)
  | binaryLeft (op : BinaryOp) (left : Context) (right : Expr) (line : Line)
  | binaryRight (op : BinaryOp) (left : Expr) (right : Context) (line : Line)
  | compareLeft (op : Comparison) (left : Context) (right : Expr) (line : Line)
  | compareRight (op : Comparison) (left : Expr) (right : Context) (line : Line)
  | logicalLeft (op : LogicalOp) (left : Context) (right : Expr) (line : Line)
  | logicalRight (op : LogicalOp) (left : Expr) (right : Context) (line : Line)
  | assignTarget (op : Option BinaryOp) (target : Context) (value : Expr) (line : Line)
  | assignValue (op : Option BinaryOp) (target : Expr) (value : Context) (line : Line)
  | step (up before : Bool) (target : Context) (line : Line)
  | index (name : String) (front : List Access) (offset : Context) (back : List Access) (line : Line)
  | argument (name : String) (front : List Expr) (arg : Context) (back : List Expr) (line : Line)

namespace Context

variable {e : Expr} {w : Watch}

/-- The expression with another one in the hole. -/
def fill (e : Expr) : Context → Expr
  | hole => e
  | unary op operand line => .unary op (operand.fill e) line
  | binaryLeft op left right line => .binary op (left.fill e) right line
  | binaryRight op left right line => .binary op left (right.fill e) line
  | compareLeft op left right line => .compare op (left.fill e) right line
  | compareRight op left right line => .compare op left (right.fill e) line
  | logicalLeft op left right line => .logical op (left.fill e) right line
  | logicalRight op left right line => .logical op left (right.fill e) line
  | assignTarget op target value line => .assign op (target.fill e) value line
  | assignValue op target value line => .assign op target (value.fill e) line
  | step up before target line => .step up before (target.fill e) line
  | index name front offset back line => .lookup name (front ++ .index (offset.fill e) :: back) line
  | argument name front arg back line => .call name (front ++ arg.fill e :: back) line

def targets (e : Expr) : Context → List Expr
  | hole => []
  | unary _ operand _ => operand.targets e
  | binaryLeft _ left right _ | compareLeft _ left right _ | logicalLeft _ left right _ =>
    left.targets e ++ right.targets
  | binaryRight _ left right _ | compareRight _ left right _ | logicalRight _ left right _ =>
    left.targets ++ right.targets e
  | assignTarget _ target value _ => target.fill e :: (target.targets e ++ value.targets)
  | assignValue _ target value _ => target :: (target.targets ++ value.targets e)
  | step _ _ target _ => target.fill e :: target.targets e
  | index _ front offset back _ => Expr.pathTargets front ++ (offset.targets e ++ Expr.pathTargets back)
  | argument _ front arg back _ => Expr.argsTargets front ++ (arg.targets e ++ Expr.argsTargets back)

def callees : Context → List String
  | hole => []
  | unary _ operand _ | step _ _ operand _ => operand.callees
  | binaryLeft _ left right _ | compareLeft _ left right _ | logicalLeft _ left right _
  | assignTarget _ left right _ => left.callees ++ right.callees
  | binaryRight _ left right _ | compareRight _ left right _ | logicalRight _ left right _
  | assignValue _ left right _ => left.callees ++ right.callees
  | index _ front offset back _ => Expr.pathCallees front ++ (offset.callees ++ Expr.pathCallees back)
  | argument name front arg back _ =>
    name :: (Expr.argsCallees front ++ (arg.callees ++ Expr.argsCallees back))

open Lower

/-- An assignment or a step around the hole has a target that leads to the variable of this name, or a
call around it passes an argument in it. -/
def StoresTo (g : Ground) (function : Option String) (e : Expr) (C : Context) (name : String) : Prop :=
  (∃ target ∈ C.targets e, ∃ (f : Frame) (s : Scope) (place : Lowered) (t : Scope),
    f.function = function ∧ s.ground = g ∧
    Gives (lowerTarget target.namesPlace target.lowering.value) f s place t ∧
    g.Writes place.slot name) ∨
  ∃ callee ∈ C.callees, ∃ signature ∈ g.functions, signature.name = callee ∧
    ∃ y ∈ g.slots, y.asmName ∈ signature.arguments ∧ g.Writes y name

theorem passes_of_not_storesTo {C : Context} (h : ¬ C.StoresTo w.ground w.function e w.name) :
    Expr.Passes w.leave (C.targets e) C.callees where
  target target htarget f s place t hf hs hgives _ hwrites hname :=
    h (.inl ⟨target, htarget, f, s, place, t, hf, hs, hgives, hname ▸ hwrites⟩)
  callee callee hcallee signature hsignature hcalled y hy hargument _ hwrites hname :=
    h (.inr ⟨callee, hcallee, signature, hsignature, hcalled, y, hy, hargument, hname ▸ hwrites⟩)

theorem evades_of_mem {targets : List Expr} {callees : List String} {target : Expr}
    (h : Expr.Passes w.leave targets callees) (hmem : target ∈ targets) : Lower.Evades w target :=
  fun _ _ _ _ hf hs hplace => h.target target hmem hf hs hplace

theorem hosting_fill {k : GuardedStep} (hg : w.leave.Fair) (he : e.lowering.Hosting w k) (C : Context)
    (h : Expr.Passes w.leave (C.targets e) C.callees) : (C.fill e).lowering.Hosting w k := by
  induction C with
  | hole => exact he
  | unary op operand line ih => exact .ofUnary hg (ih h)
  | binaryLeft op left right line ih =>
    exact .ofValue hg (hosts_lowerBinary_left hg (ih h.left).value (Expr.idle_lowering hg h.right))
  | binaryRight op left right line ih =>
    exact .ofValue hg (hosts_lowerBinary_right hg (Expr.idle_lowering hg h.left) (ih h.right).value)
  | compareLeft op left right line ih =>
    exact .ofBranch hg (hosts_branchCompare_left hg (ih h.left).value (Expr.idle_lowering hg h.right))
  | compareRight op left right line ih =>
    exact .ofBranch hg (hosts_branchCompare_right hg (Expr.idle_lowering hg h.left) (ih h.right).value)
  | logicalLeft op left right line ih =>
    exact .ofBranch hg (hosts_branchLogical_left (ih h.left).branch (Expr.idle_condition hg h.right))
  | logicalRight op left right line ih =>
    exact .ofBranch hg (hosts_branchLogical_right (Expr.idle_condition hg h.left) (ih h.right).branch)
  | assignTarget op target value line ih =>
    have hparts := h.mono (List.subset_cons_self ..) (List.Subset.refl _)
    exact .ofValue hg (hosts_lowerAssign_target hg (evades_of_mem h (by simp [targets]))
      (ih hparts.left).value (Expr.idle_lowering hg hparts.right))
  | assignValue op target value line ih =>
    have hparts := h.mono (List.subset_cons_self ..) (List.Subset.refl _)
    exact .ofValue hg (hosts_lowerAssign_value hg (evades_of_mem h (by simp [targets]))
      (Expr.idle_lowering hg hparts.left) (ih hparts.right).value)
  | step up before target line ih =>
    have htarget := h.mono (List.subset_cons_self ..) (List.Subset.refl _)
    exact .ofValue hg (hosts_lowerStep hg (evades_of_mem h (by simp [targets])) (ih htarget).value)
  | index name front offset back line ih =>
    refine .ofValue hg ?_
    rw [Expr.pathSteps_append]
    exact hosts_lowerLookup hg (PathHosts.append (.here (ih h.right.left).value
      (Expr.idle_pathSteps hg h.right.right)) (Expr.idle_pathSteps hg h.left))
  | argument name front arg back line ih =>
    have hargs := h.mono (List.Subset.refl _) (List.subset_cons_self ..)
    refine .ofValue hg ?_
    rw [Expr.argValues_append]
    exact hosts_lowerCall hg (HostsAt.append (.head (ih hargs.right.left).value
      (Expr.idle_argValues hg hargs.right.right)) (Expr.idle_argValues hg hargs.left))
      (h.callee name (by simp [callees]))

end Context

end Flatword
