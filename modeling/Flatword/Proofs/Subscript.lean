import Flatword.Proofs.Cells
import Flatword.Proofs.Stored

/-!
# Cells by constant and by computed indexes

Constant indexes are added up when the code is made, and lead to the slot of a cell; variables are
multiplied and added by the code, and become the offset of the header. Both lead to the same word, unless a
variable is a register that the code computes in.
-/

namespace Flatword

theorem Slot.Fetches.place?_eq {m : Machine} {x : Slot} {o : Fetch} (h : x.Fetches m o) {μ : Memory}
    {address : Word} (ho : o.place μ = some address) :
    (x.place? μ).map UInt64.ofNat = some address := by
  cases h with
  | constant => simp [Fetch.place] at ho
  | word hk ha =>
    have hoffset : x.offset = none := hk.elim Slot.offset_of_isPlain And.right
    simpa [Slot.place?, hoffset, ha.1, Fetch.place] using ho
  | behind hk hoffset ha =>
    have hconstant : x.kind ≠ .constant := by
      rintro hkind
      simp [hkind, Kind.isRegular] at hk
    simpa [Slot.place?, Slot.base?, hoffset, hconstant, ha.1, Fetch.place, -UInt64.toNat_add] using ho
  | indexed hk hoffset ha =>
    have hconstant : x.kind ≠ .constant := by
      rintro hkind
      simp [hkind, Kind.isRegular] at hk
    simpa [Slot.place?, Slot.base?, hoffset, hconstant, ha.1, Fetch.place, -UInt64.toNat_add] using ho

theorem Expr.IsOperand.isPointed {e : Expr} {vars : String → Option Nat} {S : Set Nat}
    (h : e.IsOperand vars S) : e.IsPointed vars S ∧ ∀ m μ, e.Lands m vars S μ := by
  cases h with
  | constant hw => exact ⟨.constant hw, by simp [Expr.Lands, Expr.reached]⟩
  | lookup hvar ha => exact ⟨.word hvar ha, by simp [Expr.Lands, Expr.reached, Expr.pathReached]⟩

theorem Scope.Placed.ready {m : Machine} {s : Scope} (hs : s.Placed m) (hreuse : s.reuse.target? = none) :
    s.Ready m where
  regular := hs.regular
  slots := hs.slots
  registers := hs.registers
  target := by simp [hreuse]
  constants hnames := by
    obtain ⟨a, ha, hspace⟩ := hs.constants hnames
    exact ⟨a, ha, fun hscratch => hspace (.inl (Scope.scratch_of_target hreuse ▸ hscratch))⟩

namespace Lower

variable {m : Machine} {f : Frame} {s t u : Scope} {v : Lowered}

/-- An operand is the word at an address, after its code has run, which changes spare places only. -/
def Lowered.LiesAt (m : Machine) (s : Scope) (μ : Memory) (v : Lowered) (address : Word) : Prop :=
  ∃ μ', m.Runs v.code μ μ' ∧ AgreeOutside s.spare μ μ' ∧
    (v.slot.place? μ').map UInt64.ofNat = some address

theorem Lowered.Designates.liesAt {μ : Memory} {address : Word} (h : v.Designates m s μ address) :
    v.LiesAt m s μ address := by
  obtain ⟨o, μ', ho, hruns, hagree, hplace⟩ := h
  exact ⟨μ', hruns, hagree, ho.place?_eq hplace⟩

/-! ## Constant indexes -/

theorem addIndexes_constant_lt {sum sum' : IndexSum} {es : List Expr} {dimensions strides : List Word}
    (hstrides : strides.length = dimensions.length)
    (h : Gives (sum.addIndexes dimensions strides (es.map Expr.lower)) f s sum' t) {j : Nat} {hex : String}
    {fixed : Bool} {line : Line} {i d : Word} (he : es[j]? = some (.constant hex fixed line))
    (hi : Hex.value? hex = some i) (hd : dimensions[j]? = some d) : i < d := by
  induction es generalizing sum dimensions strides s j with
  | nil => simp at he
  | cons e es ih =>
    obtain _ | ⟨dimension, dimensions⟩ := dimensions
    · simp at hd
    obtain _ | ⟨stride, strides⟩ := strides
    · simp at hstrides
    simp only [List.map_cons, IndexSum.addIndexes, gives_bind] at h
    obtain ⟨sum₁, s₁, hfirst, h⟩ := h
    obtain _ | j := j
    · obtain rfl : e = .constant hex fixed line := Option.some.inj he
      obtain rfl : dimension = d := Option.some.inj hd
      simp only [IndexSum.addIndex, gives_bind] at hfirst
      obtain ⟨v, s₂, hv, hfirst⟩ := hfirst
      simp only [Expr.lower, Expr.lowering, Lowering.ofConstant, gives_pure] at hv
      obtain ⟨rfl, rfl⟩ := hv
      have hconstant : (if fixed then { Slot.constant hex with type := .fixed } else
          Slot.constant hex : Slot).isConstant = true := by split <;> rfl
      have hvalue : (if fixed then { Slot.constant hex with type := .fixed } else
          Slot.constant hex : Slot).value? = some i := by
        split <;> simpa [Slot.constant, Slot.value?] using hi
      dsimp only at hfirst
      rw [if_pos hconstant, constantWord, hvalue] at hfirst
      simp only [gives_bind, gives_orFail] at hfirst
      obtain ⟨known, _, ⟨hknown, rfl⟩, hfirst⟩ := hfirst
      obtain rfl := Option.some.inj hknown
      split at hfirst
      · simp at hfirst
      · next hlt => exact UInt64.not_le.mp hlt
    · exact ih (by simpa using hstrides) h he hd

/-! ## The word of a cell -/

theorem knownCell_address {arr x : Slot} {item : ArrayItem} {strides : List Word} {base distance : Word}
    {leftSide : Bool} (hitem : item.kind ≠ .struct) (hbase : arr.value? = some base)
    (h : Gives (knownCell leftSide arr item strides distance) f s x t) :
    x.address = some (base + distance).toNat := by
  simp only [knownCell, hitem, if_false, gives_bind, gives_orFail, gives_onSide] at h
  obtain ⟨_, _, ⟨hvalue, rfl⟩, h⟩ := h
  obtain rfl := Option.some.inj (hbase.symm.trans hvalue)
  exact (lookupAt_found h).1

/-- A scope of located code that has no target, on a machine that multiplies. All registers are words. -/
structure Setting (options : Options) (definitions : List (Place × Definition)) (before now : Session)
    (m : Machine) (u : Scope) : Prop extends Located options definitions before now m u where
  words : ∀ r ∈ now.table.registers, r.kind.isRegular = true
  mul : ∀ a b, m.alu.apply .mul a b = a * b
  reuse : u.reuse.target? = none

/-- An array with a shape, and a constant or a plain variable for each of its dimensions. No variable is
a register. The shape of an array of structs is that of its own elements. -/
structure Subscripts (f : Frame) (u : Scope) (arr : Slot) (item : ArrayItem) (shape : ArrayShape)
    (es : List Expr) : Prop where
  array : arr ∈ u.session.table.slots
  kind : arr.kind = .array
  element : arr.item = some item
  found : arr.shape.bind u.session.catalog.findArray? = some shape
  fits : ∀ S, item.kind = .struct → u.session.catalog.findStruct? item.shape "" = some S →
    shape.Fits S.template.size item.totalSize
  operands : ∀ e ∈ es, e.IsOperand (u.ground.plain? f.function) u.registers
  length : es.length = shape.dimensions.length

namespace Setting

variable {options : Options} {definitions : List (Place × Definition)} {before now : Session}

theorem start (h : Session.Defined options definitions now) (hglobal : ∀ d ∈ definitions, d.1 = .global)
    (hwords : ∀ r ∈ now.table.registers, r.kind.isRegular = true) :
    Setting options definitions now now (now.table.machine .unsigned) (Scope.start now) :=
  ⟨.start h hglobal .unsigned, hwords, fun _ _ => rfl, rfl⟩

theorem indexable (h : Setting options definitions before now m u) : Indexable m u := by
  have hplaced := h.reached.placed h.words h.machine h.scope fun target hr => by
    simpa [hr, Reuse.target?] using h.reuse
  exact .of_ready (hplaced.ready h.reuse) h.reuse h.mul

theorem formed (h : Setting options definitions before now m u) {name : Option String}
    {shape : ArrayShape} (hshape : name.bind u.session.catalog.findArray? = some shape) :
    shape.dimensions ≠ [] ∧ shape.strides.length = shape.dimensions.length := by
  have hcatalog : u.session.catalog = now.catalog := congrArg Ground.catalog h.ground
  obtain ⟨hdimensions, hstrides⟩ :=
    h.reached.ready.formed shape (hcatalog ▸ Catalog.mem_of_bind_findArray? hshape)
  exact ⟨hdimensions, by rw [hstrides, ArrayShape.length_stridesOf]⟩

end Setting

section Cells

variable {options : Options} {definitions : List (Place × Definition)} {before now : Session} {arr : Slot}
  {item : ArrayItem} {shape : ArrayShape} {es : List Expr} {A : Nat} {leftSide : Bool} {μ : Memory}

theorem CellAt.liesAt {indexes : Memory → List Word} {safe : Memory → Prop}
    (hu : Setting options definitions before now m u) (hes : Subscripts f u arr item shape es)
    (haddress : arr.address = some A) (hvalue : arr.value? = some (UInt64.ofNat (A + 1)))
    (h : CellAt m f u leftSide arr item shape.strides (fun μ => strideSum shape.strides (indexes μ)) safe v t)
    (hμ : u.ground.HoldIn μ) (hheader : μ A = UInt64.ofNat (A + 1)) (hsafe : safe μ)
    (hin : List.Forall₂ (· < ·) (indexes μ) shape.dimensions) :
    v.LiesAt m u μ (UInt64.ofNat (A + 1) + strideSum shape.strides (indexes μ)) := by
  have hindexable := hu.indexable
  cases h with
  | computed h =>
    have hdesignates := h.designates hes.kind (hindexable.isAt hes.array hes.kind haddress)
      (hindexable.headers arr (Scope.knows_of_mem hes.array) hes.kind A haddress) hμ hsafe
    exact (hheader ▸ hdesignates).liesAt
  | known distance w hground hcell h =>
    obtain ⟨hdistance, μ', hruns, hagree⟩ := h μ hμ hsafe
    have hknows : u.Knows v.slot := (knownCell_notes hcell).1.congr hground.symm
    refine ⟨μ', hruns, hagree, ?_⟩
    rw [Slot.place?, hu.offset_eq_none hknows, hdistance]
    by_cases hstruct : item.kind = .struct
    · obtain ⟨S, A', count, hname, hS, hA', hpos, htotal, helements⟩ :=
        hu.arrayed.exists_element hu.laidOut hes.array hes.kind hes.element hstruct
      obtain rfl : A' = A := Option.some.inj (hA'.symm.trans haddress)
      have hS := hu.arrayed.separate.findStruct?_eq hS
      obtain ⟨hlt, hsum, hnumber⟩ := (hes.fits S hstruct (hname ▸ hS)).number (hu.formed hes.found).1 hpos
        htotal hin
      rw [hdistance] at hsum hnumber
      obtain ⟨o, ho, -, -, honame, hoaddress⟩ := helements _ hlt
      obtain ⟨-, -, hxname⟩ := knownCell_struct hstruct hcell
      have hsame := unmarked_eq_of_asmName hu.laidOut hknows ho (by rw [hxname, hnumber, honame])
      have hxaddress := congrArg Slot.address hsame
      have hxaddress : v.slot.address = _ := hxaddress.trans hoaddress
      rw [hxaddress, Option.map_some, UInt64.ofNat_add, hsum]
    · rw [knownCell_address hstruct hvalue hcell, Option.map_some, UInt64.ofNat_toNat]

/-- The indexes have values inside the dimensions in a memory, where the constants of the scope and the
headers of its arrays are what is recorded of them. -/
structure IndexesIn (m : Machine) (f : Frame) (u : Scope) (shape : ArrayShape) (es : List Expr)
    (μ : Memory) (indexes : List Word) : Prop where
  constants : u.ground.HoldIn μ
  headers : u.ground.HeadersIn μ
  values : es.map (Expr.worth m.alu (u.ground.plain? f.function) μ) = indexes
  inside : List.Forall₂ (· < ·) indexes shape.dimensions

/-- The indexes of an array lead to the word that its strides say, in every mixture of constants and
variables that are no registers: the address of the header, and one, and each index times its stride. A
member of an element of an array of structs is there by its distance. No constant index is outside of its
dimension. -/
theorem Setting.indexes_lead_to_word (hu : Setting options definitions before now m u)
    (hes : Subscripts f u arr item shape es) :
    ∃ A, arr.address = some A ∧
      (∀ {leftSide v taken t}, Gives (indexArray leftSide arr (es.map Expr.lower)) f u (v, taken) t →
        (∀ {j : Nat} {hex fixed line i d}, es[j]? = some (.constant hex fixed line) →
          Hex.value? hex = some i → shape.dimensions[j]? = some d → i < d) ∧
        ∀ {μ indexes}, IndexesIn m f u shape es μ indexes →
          v.LiesAt m u μ (UInt64.ofNat (A + 1) + strideSum shape.strides indexes)) ∧
      ∀ {leftSide member v t S distance template}, item.kind = .struct →
        Gives (followAfter leftSide 0 ⟨arr, []⟩ (Expr.pathSteps (es.map .index ++ [.member member])))
          f u v t →
        u.session.catalog.findStruct? item.shape "" = some S →
        S.member? member = some (distance, template) → template.kind.isRegular = true →
        ∀ {μ indexes}, IndexesIn m f u shape es μ indexes → v.LiesAt m u μ
          (UInt64.ofNat (A + 1) + strideSum shape.strides indexes + UInt64.ofNat distance) := by
  obtain ⟨A, haddress, hvalue⟩ := hu.header (Scope.knows_of_mem hes.array) hes.kind
  obtain ⟨hdimensions, hstrides⟩ := hu.formed hes.found
  have hindexable := hu.indexable
  have hscratch := Scope.scratch_of_target hu.reuse
  have hpointed : ∀ e ∈ es, e.IsPointed (u.ground.plain? f.function) u.scratch := fun e he =>
    hscratch ▸ (hes.operands e he).isPointed.1
  have hlands (μ : Memory) : ∀ e ∈ es, e.Lands m (u.ground.plain? f.function) u.scratch μ := fun e he =>
    hscratch ▸ (hes.operands e he).isPointed.2 m μ
  have hheader {μ : Memory} (hμ : u.ground.HeadersIn μ) : μ A = UInt64.ofNat (A + 1) :=
    hμ arr.unmarked (Scope.knows_of_mem hes.array) hes.kind _ hvalue A haddress
  refine ⟨A, haddress, fun hgives => ⟨fun he hi hd => ?_, ?_⟩, ?_⟩
  · obtain ⟨-, sum, w, hsum, -⟩ := indexArray_gives hes.element hes.found hgives
    exact addIndexes_constant_lt hstrides hsum he hi hd
  · rintro μ _ ⟨hμ, hheaders, rfl, hin⟩
    obtain ⟨-, hcell⟩ := cellAt_of_gives hindexable.ready hu.mul hes.element hes.found hpointed hes.length
      hgives
    exact hcell.liesAt hu hes haddress hvalue hμ (hheader hheaders) (hlands μ) hin
  · rintro leftSide member v t S distance template hstruct hgives hS hmember hk μ _
      ⟨hμ, hheaders, rfl, hin⟩
    obtain ⟨S', A', count, hname, hS', hA', hpos, htotal, helements⟩ :=
      hu.arrayed.exists_element hu.laidOut hes.array hes.kind hes.element hstruct
    have hS' := hu.arrayed.separate.findStruct?_eq hS'
    obtain rfl : S' = S := Option.some.inj ((hname ▸ hS').symm.trans hS)
    obtain rfl : A' = A := Option.some.inj (hA'.symm.trans haddress)
    have hfits := hes.fits S' hstruct hS
    have hat := memberOfElement_of_gives hindexable.ready hu.mul hindexable.headers hes.kind
      (hu.offset_eq_none (Scope.knows_of_mem hes.array)) hes.element hstruct hes.found hpointed hes.length
      hgives
    obtain ⟨-, hdesignates⟩ := hat.designates hindexable hu.arrayed hu.laidOut hes.array hes.kind haddress
      hname hS' hpos htotal helements hmember hk hfits hdimensions hμ (hlands μ) (hheader hheaders) hin
    rw [UInt64.ofNat_add, UInt64.ofNat_add, ← (hfits.number hdimensions hpos htotal hin).2.1] at hdesignates
    exact hdesignates.liesAt

end Cells

end Lower

/-- An array `ps` of two times three structs of two words, and a word `i`. -/
def structGrid : List (Place × Definition) :=
  [(.global, .struct "P" [.keyword "long" 1, .ident "x" 1, .comma 1, .ident "y" 1] 1),
    (.global, Definition.variables [.struct "P" 2, .ident "ps" 2, .array 2 2, .array 3 2]),
    (.global, Definition.variables [.keyword "long" 3, .ident "i" 3])]

open Lower in
/-- While `i` is 1, `ps[i][2]` is computed and `ps[1][2]` is known, and both are at 14. The member `y` is
the next word. -/
theorem structGrid_indexed : ∃ (s : Session) (m : Machine) (μ : Memory) (arr : Slot) (item : ArrayItem)
    (shape : ArrayShape) (v w x : Lowered) (t t' t'' : Scope),
    Setting {} structGrid s s m (Scope.start s) ∧
      (∀ e ∈ [Expr.var "i" 4, .long 1 4], Subscripts { line := 4 } (Scope.start s) arr item shape [e, .long 2 4] ∧
        IndexesIn m { line := 4 } (Scope.start s) shape [e, .long 2 4] μ [1, 2]) ∧
      Gives (indexArray false arr [(Expr.var "i" 4).lower, (Expr.long 2 4).lower]) { line := 4 }
        (Scope.start s) (v, 2) t ∧ v.slot.offset ≠ none ∧ v.LiesAt m (Scope.start s) μ 14 ∧
      Gives (indexArray false arr [(Expr.long 1 4).lower, (Expr.long 2 4).lower]) { line := 4 }
        (Scope.start s) (w, 2) t' ∧ w.slot.offset = none ∧ w.LiesAt m (Scope.start s) μ 14 ∧
      Gives (followAfter false 0 ⟨arr, []⟩ (Expr.pathSteps [.index (.var "i" 4), .index (.long 2 4),
        .member "y"])) { line := 4 } (Scope.start s) x t'' ∧ x.LiesAt m (Scope.start s) μ 15 := by
  let index (e : Expr) (arr : Slot) : Lower (Lowered × Nat) :=
    indexArray false arr [e.lower, (Expr.long 2 4).lower]
  let path (arr : Slot) : Lower Lowered := followAfter false 0 ⟨arr, []⟩
    (Expr.pathSteps [.index (.var "i" 4), .index (.long 2 4), .member "y"])
  have hfound : (Session.after? {} structGrid).any fun s =>
      (s.table.slots.any fun arr => (arr.kind = .array && arr.address = some 3) &&
        (arr.shape.bind s.catalog.findArray?).any fun shape => (shape.dimensions = [2, 3] &&
          shape.strides = [6, 2]) && arr.item.any fun item => item.kind = .struct &&
            (s.catalog.findStruct? item.shape "").any fun S => (S.template.size = 2 &&
              ArrayShape.stridesOf 2 shape.dimensions = shape.strides &&
              arrayTotal? 2 shape.dimensions = some item.totalSize) &&
              ((S.member? "y").any fun found => found.1 = 1 && found.2.kind.isRegular) &&
          ((outcome (index (.var "i" 4) arr) { line := 4 } (Scope.start s)).1.toOption.any fun v =>
            v.2 = 2 && v.1.slot.offset.isSome) &&
          ((outcome (index (.long 1 4) arr) { line := 4 } (Scope.start s)).1.toOption.any fun v =>
            v.2 = 2 && v.1.slot.offset = none) &&
          (outcome (path arr) { line := 4 } (Scope.start s)).1.toOption.isSome) &&
      ((Scope.start s).ground.plain? none "i" = some 16 &&
        !(((Scope.start s).ground.registers.map Slot.address).contains (some 16))) &&
      s.table.registers.all (·.kind.isRegular) &&
      s.table.slots.all fun x => (x.content = none || x.asmName = "ps") &&
        (x.kind ≠ .array || x.address = some 3 && x.value? = some 4) := by
    decide +kernel
  obtain ⟨s, hs, hfound⟩ := (Option.any_eq_true _ _).mp hfound
  simp only [Bool.and_eq_true, List.any_eq_true, Option.any_eq_true, decide_eq_true_eq, Bool.not_eq_true',
    List.all_eq_true, Bool.or_eq_true, Option.isSome_iff_exists] at hfound
  obtain ⟨⟨⟨⟨arr, harr, ⟨hkind, hA⟩, shape, hshape, ⟨hdimensions, hstrides⟩, item, hitem, hstruct, S, hS,
    ⟨⟨⟨⟨⟨⟨hsize, hof⟩, htotal⟩, ⟨distance, template⟩, hmember, hone, hregular⟩, ⟨v, taken⟩, hv, htaken, b, hb⟩,
      ⟨w, taken'⟩, hw, htaken', hnone⟩, x, hx⟩⟩, hi, hregister⟩, hwords⟩, hslots⟩ := hfound
  let μ : Memory := fun a => if a = 3 then 4 else if a = 16 then 1 else 0
  have hu := Setting.start (Session.defined_of_after? hs) (by decide) hwords
  have hfree : 16 ∉ (Scope.start s).registers := by simpa [Scope.registers] using hregister
  have hlong (w : Word) :
      (Expr.long w 4).IsOperand ((Scope.start s).ground.plain? none) (Scope.start s).registers ∧
        (Expr.long w 4).worth Alu.unsigned ((Scope.start s).ground.plain? none) μ = w := by
    refine ⟨.constant (Hex.value?_ofWord w), ?_⟩
    simp only [Expr.long, Expr.worth, Hex.value?_ofWord]
    rfl
  have hes : ∀ e ∈ [Expr.var "i" 4, .long 1 4],
      Subscripts { line := 4 } (Scope.start s) arr item shape [e, .long 2 4] ∧
        IndexesIn (s.table.machine .unsigned) { line := 4 } (Scope.start s) shape [e, .long 2 4] μ [1, 2] := by
    intro e he
    have he : e.IsOperand ((Scope.start s).ground.plain? none) (Scope.start s).registers ∧
        e.worth Alu.unsigned ((Scope.start s).ground.plain? none) μ = 1 := by
      simp only [List.mem_cons, List.not_mem_nil, or_false] at he
      rcases he with rfl | rfl
      · refine ⟨.lookup hi hfree, ?_⟩
        simp only [Expr.var, Expr.worth, Expr.pathWorth, hi]
        rfl
      · exact hlong 1
    constructor
    · refine ⟨harr, hkind, hitem, hshape, fun S' _ hS' => ?_, ?_, by simp [hdimensions]⟩
      · obtain rfl : S' = S := Option.some.inj (hS'.symm.trans hS)
        rw [hsize]
        exact ⟨hof.symm, htotal⟩
      · simpa using ⟨he.1, (hlong 2).1⟩
    · refine ⟨Scope.holdIn_start "ps" (by decide) (fun x hx => (hslots x hx).1) μ,
        Scope.headersIn_start rfl fun x hx => (hslots x hx).2, ?_, ?_⟩
      · simp only [List.map_cons, List.map_nil, List.cons.injEq, and_true]
        exact ⟨he.2, (hlong 2).2⟩
      · rw [hdimensions]
        exact .cons (by decide) (.cons (by decide) .nil)
  obtain ⟨hcomputed, hin⟩ := hes (.var "i" 4) (by simp)
  obtain ⟨hknown, hin'⟩ := hes (.long 1 4) (by simp)
  have hplace : UInt64.ofNat (3 + 1) + strideSum shape.strides [1, 2] = 14 := by
    rw [hstrides]
    decide
  obtain rfl : taken = 2 := htaken
  obtain rfl : taken' = 2 := htaken'
  have hoffset : v.slot.offset = some b := hb
  have hv := gives_of_toOption hv
  have hw := gives_of_toOption hw
  have hx := gives_of_toOption hx
  obtain ⟨A, hA', hword, hmembers⟩ := hu.indexes_lead_to_word hcomputed
  obtain ⟨A', hA'', hword', -⟩ := hu.indexes_lead_to_word hknown
  obtain rfl : A = 3 := Option.some.inj (hA'.symm.trans hA)
  obtain rfl : A' = 3 := Option.some.inj (hA''.symm.trans hA)
  refine ⟨s, _, μ, arr, item, shape, v, w, x, _, _, _, hu, hes, hv, by simp [hoffset], ?_, hw, hnone, ?_, hx, ?_⟩
  · exact hplace ▸ (hword hv).2 hin
  · exact hplace ▸ (hword' hw).2 hin'
  · have hlies := hmembers hstruct hx hS hmember hregular hin
    rw [hplace, show distance = 1 from hone] at hlies
    exact hlies

/-- A word that is called like a register, and an array of two times three words. -/
def borrowedIndex : List (Place × Definition) :=
  [(.global, Definition.variables
    [.keyword "long" 1, .ident "r5" 1, .comma 1, .ident "a" 1, .array 2 1, .array 3 1])]

open Lower in
/-- The word `r5` is in the pool, and is multiplied in place as the first index of `a[r5][r5]` before it
is added as the second one. While it is 1, the code leads to 11 and not to 9. -/
theorem borrowedIndex_misplaced : ∃ (s : Session) (m : Machine) (μ μ' : Memory) (arr : Slot)
    (shape : ArrayShape) (v : Lowered) (t : Scope),
    Setting {} borrowedIndex s s m (Scope.start s) ∧ arr ∈ s.table.slots ∧ arr.address = some 4 ∧
      arr.shape.bind s.catalog.findArray? = some shape ∧
      (Scope.start s).ground.long? none "r5" = some 3 ∧
      Gives (indexArray false arr [(Expr.var "r5" 2).lower, (Expr.var "r5" 2).lower]) { line := 2 }
        (Scope.start s) (v, 2) t ∧
      μ 3 = 1 ∧ μ 4 = 5 ∧ m.Runs v.code μ μ' ∧ v.slot.place? μ' = some 11 ∧
      UInt64.ofNat (4 + 1) + strideSum shape.strides [1, 1] = 9 := by
  let index (arr : Slot) : Lower (Lowered × Nat) :=
    indexArray false arr [(Expr.var "r5" 2).lower, (Expr.var "r5" 2).lower]
  have hfound : (Session.after? {} borrowedIndex).any fun s =>
      (s.table.slots.any fun arr => (arr.kind = .array && arr.address = some 4) &&
        ((arr.shape.bind s.catalog.findArray?).any (·.strides = [3, 1]) &&
          (outcome (index arr) { line := 2 } (Scope.start s)).1.toOption.any fun v => v.2 = 2 &&
            (v.1.slot = { arr with offset := some (.stored 3), type := v.1.slot.type } &&
            v.1.code = [.setImmediate "r0" (Hex.ofWord 3), .arith .mul "r5" "r0",
              .arith .add "r5" "r5"]))) &&
      (((Scope.start s).ground.long? none "r5" = some 3 && s.table.registers.all (·.kind.isRegular)) &&
        ((s.table.machine .unsigned).place "r0" = some 0 &&
          (s.table.machine .unsigned).place "r5" = some 3)) := by
    decide +kernel
  obtain ⟨s, hs, hfound⟩ := (Option.any_eq_true _ _).mp hfound
  simp only [Bool.and_eq_true, List.any_eq_true, Option.any_eq_true, decide_eq_true_eq,
    List.all_eq_true] at hfound
  obtain ⟨⟨arr, harr, ⟨hkind, hA⟩, ⟨shape, hshape, hstrides⟩, ⟨v, taken⟩, hv, htaken, hslot, hcode⟩,
    ⟨hlong, hwords⟩, hr0, hr5⟩ := hfound
  obtain rfl : taken = 2 := htaken
  have hslot : v.slot = _ := hslot
  have hcode : v.code = _ := hcode
  let μ : Memory := fun a => if a = 3 then 1 else if a = 4 then 5 else 0
  let μ₁ := Function.update μ 0 3
  let μ₂ := Function.update μ₁ 3 3
  refine ⟨s, s.table.machine .unsigned, μ, Function.update μ₂ 3 6, arr, shape, v, _, ?_, harr, hA, hshape,
    hlong, gives_of_toOption hv, rfl, rfl, ?_, ?_, ?_⟩
  · exact Setting.start (Session.defined_of_after? hs) (by decide) hwords
  · have hmul : (s.table.machine .unsigned).Runs [.arith .mul "r5" "r0"] μ₁ μ₂ :=
      Machine.runs_arith .mul hr5 hr0
    have hadd : (s.table.machine .unsigned).Runs [.arith .add "r5" "r5"] μ₂ (Function.update μ₂ 3 6) :=
      Machine.runs_arith .add hr5 hr5
    rw [hcode]
    exact (Machine.runs_setImmediate hr0 (Hex.value?_ofWord 3)).append (hmul.append hadd)
  · rw [hslot]
    simp [Slot.place?, Slot.base?, hkind, hA, μ₂, μ₁, μ]
  · rw [hstrides]
    decide

end Flatword
