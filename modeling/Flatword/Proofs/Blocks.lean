import Mathlib.Data.List.Forall2
import Flatword.Proofs.Layout
import Flatword.Proofs.Table

/-!
# Arrays and their cells

The header of an array is followed by the words that it speaks of, under its own name. This holds of
what every declarator gives, of the members of every struct, and so of the whole table, in which the
header holds the address of the first of these words.
-/

namespace Flatword

variable {back front slots : List Slot} {dimensions : List Word} {place : Place}

/-! ## Blocks -/

/-- The name of a slot starts with that of another one and an underscore. -/
def Slot.Under (s h : Slot) : Prop :=
  ∃ rest, s.asmName = h.asmName ++ "_" ++ rest

/-- A header counts itself and the words of the body, which go under its name. -/
structure Slot.Spans (h : Slot) (body : List Slot) : Prop where
  size : ∃ item, h.item = some item ∧ item.totalSize = wordCount (body.map Slot.kind) + 1
  under : ∀ s ∈ body, s.Under h

def Blocks : List Slot → Prop
  | [] => True
  | s :: rest => (s.kind = .array → ∃ body, body <+: rest ∧ s.Spans body) ∧ Blocks rest

theorem blocks_of_not_array (h : ∀ s ∈ slots, s.kind ≠ .array) : Blocks slots := by
  induction slots with
  | nil => trivial
  | cons s rest ih =>
    exact ⟨fun hs => absurd hs (h s (by simp)), ih fun x hx => h x (by simp [hx])⟩

theorem Blocks.append (hf : Blocks front) (hb : Blocks back) : Blocks (front ++ back) := by
  induction front with
  | nil => exact hb
  | cons s front ih =>
    refine ⟨fun hs => ?_, ih hf.2⟩
    obtain ⟨body, hbody, hspans⟩ := hf.1 hs
    exact ⟨body, hbody.trans (List.prefix_append ..), hspans⟩

theorem Blocks.flatMap {α : Type} {xs : List α} {g : α → List Slot} (h : ∀ x ∈ xs, Blocks (g x)) :
    Blocks (xs.flatMap g) := by
  induction xs with
  | nil => trivial
  | cons x xs ih =>
    exact (h x (by simp)).append (ih fun y hy => h y (by simp [hy]))

theorem Blocks.spans {s : Slot} (h : Blocks (front ++ s :: back)) (hs : s.kind = .array) :
    ∃ body, body <+: back ∧ s.Spans body := by
  induction front with
  | nil => exact h.1 hs
  | cons x front ih => exact ih h.2

theorem Blocks.transport {R : Slot → Slot → Prop} (hkind : ∀ {s s'}, R s s' → s'.kind = s.kind)
    (hitem : ∀ {s s'}, R s s' → s'.item = s.item)
    (hunder : ∀ {s s' h h'}, R s s' → R h h' → s.Under h → s'.Under h')
    {slots slots' : List Slot} (hR : List.Forall₂ R slots slots') (h : Blocks slots) :
    Blocks slots' := by
  have hkinds {xs ys : List Slot} (hxy : List.Forall₂ R xs ys) :
      ys.map Slot.kind = xs.map Slot.kind := by
    induction hxy with
    | nil => rfl
    | cons hx _ ih => simp [hkind hx, ih]
  have hsource {xs ys : List Slot} (hxy : List.Forall₂ R xs ys) {y : Slot} (hy : y ∈ ys) :
      ∃ x ∈ xs, R x y := by
    induction hxy with
    | nil => simp at hy
    | cons hx _ ih =>
      rcases List.mem_cons.mp hy with rfl | hy
      · exact ⟨_, by simp, hx⟩
      · obtain ⟨x, hx, hxy⟩ := ih hy
        exact ⟨x, by simp [hx], hxy⟩
  induction hR with
  | nil => trivial
  | @cons s s' rest rest' hs hrest ih =>
    refine ⟨fun harray => ?_, ih h.2⟩
    obtain ⟨body, ⟨tail, rfl⟩, ⟨item, hs_item, hsize⟩, hnames⟩ := h.1 (hkind hs ▸ harray)
    have hcut : List.Forall₂ R body (rest'.take body.length) := by
      simpa using List.forall₂_take body.length hrest
    refine ⟨rest'.take body.length, List.take_prefix .., ⟨item, hitem hs ▸ hs_item, ?_⟩, ?_⟩
    · rw [hkinds hcut, hsize]
    · intro x' hx'
      obtain ⟨x, hx, hxx'⟩ := hsource hcut hx'
      exact hunder hxx' hs (hnames x hx)

/-! ## Declarators -/

/-- What a phrase at a place declares: blocks, whose names in the assembly follow those in the
source. -/
def LaidBy (place : Place) (slots : List Slot) : Prop :=
  Blocks slots ∧ ∀ s ∈ slots, s.asmName = place.stem ++ s.name

theorem LaidBy.append {first later : List Slot} (h : LaidBy place first) (h' : LaidBy place later) :
    LaidBy place (first ++ later) :=
  ⟨h.1.append h'.1, fun s hs => (List.mem_append.mp hs).elim (h.2 s) (h'.2 s)⟩

theorem LaidBy.cons {header : Slot} {body : List Slot} (h : LaidBy place body)
    (hname : header.asmName = place.stem ++ header.name) (hspans : header.Spans body) :
    LaidBy place (header :: body) :=
  ⟨⟨fun _ => ⟨body, List.prefix_rfl, hspans⟩, h.1⟩, List.forall_mem_cons.mpr ⟨hname, h.2⟩⟩

/-- A struct whose members can be put under the name of any of its values. -/
structure StructShape.Laid (shape : StructShape) : Prop where
  blocks : Blocks shape.members
  names : ∀ s ∈ shape.members, s.asmName = s.name
  size : shape.template.size = wordCount (shape.members.map Slot.kind)
  kind : shape.template.kind = .struct
  unnamed : shape.template.name = ""

def Catalog.Laid (c : Catalog) : Prop :=
  ∀ shape, Shape.struct shape ∈ c → shape.Laid

theorem dvd_of_foldlM {g : Nat → Word → Option Nat} (hg : ∀ {n d m}, g n d = some m → n ∣ m)
    {size n : Nat} (h : dimensions.foldlM g size = some n) : size ∣ n := by
  induction dimensions generalizing size with
  | nil =>
    obtain rfl : size = n := Option.some.inj h
    exact Nat.dvd_refl size
  | cons d rest ih =>
    rw [List.foldlM_cons] at h
    obtain ⟨m, hm, h⟩ := Option.bind_eq_some_iff.mp h
    exact Nat.dvd_trans (hg hm) (ih h)

theorem arrayTotal?_eq_some {size total : Nat} (h : arrayTotal? size dimensions = some total) :
    ∃ count, total = size * count + 1 := by
  obtain ⟨cells, hcells, h⟩ := Option.bind_eq_some_iff.mp h
  have hdvd : size ∣ cells := by
    refine dvd_of_foldlM (fun {n d m} hm => ?_) hcells
    dsimp only at hm
    split at hm
    · obtain rfl := Option.some.inj hm
      exact Nat.dvd_mul_right n d.toNat
    · simp at hm
  obtain ⟨count, rfl⟩ := hdvd
  dsimp only at h
  split at h
  · exact ⟨count, (Option.some.inj h).symm⟩
  · simp at h

namespace Declarator

variable {count : Nat} {element header : Slot} {type : ValueType} {name : String} {place : Place}
  {shape : StructShape} {d : Declarator} {frame : PhraseFrame} {declared : Declared}

theorem mem_cells {header element s : Slot} (h : s ∈ cells header element type count) :
    s.kind = element.kind ∧ ∃ i, s.name = header.name ++ "_" ++ i ∧
      s.asmName = header.asmName ++ "_" ++ i := by
  obtain ⟨i, -, rfl⟩ := List.mem_map.mp h
  exact ⟨rfl, toString i, rfl, rfl⟩

theorem wordCount_cells (helement : element.kind.width = 1) :
    wordCount ((cells header element type count).map Slot.kind) = count := by
  rw [wordCount, List.countP_map, List.countP_eq_length.mpr fun s hs => ?_]
  · simp [cells]
  · rw [Function.comp_apply, (mem_cells hs).1]
    revert helement
    cases element.kind <;> simp [Kind.width]

theorem laidBy_base {register : Bool} {b : BaseType}
    (h : d.base frame register b = .ok declared) : LaidBy frame.place declared.slots := by
  have hkind : b.template.kind ≠ .array ∧ b.template.kind.width = 1 := by
    cases b <;> decide
  obtain ⟨_, _, -, rfl | ⟨total, _, -, htotal, rfl, rfl⟩⟩ := base_eq_ok h
  · refine ⟨blocks_of_not_array fun s hs => ?_, fun s hs => ?_⟩ <;>
      obtain rfl := List.mem_singleton.mp hs
    · exact hkind.1
    · rfl
  · obtain ⟨count, rfl⟩ := arrayTotal?_eq_some htotal
    refine LaidBy.cons ⟨blocks_of_not_array fun s hs => ?_, fun s hs => ?_⟩ rfl
      ⟨⟨_, rfl, ?_⟩, fun s hs => ?_⟩
    · rw [(mem_cells hs).1]
      exact hkind.1
    · obtain ⟨-, i, hname, hasm⟩ := mem_cells hs
      rw [hname, hasm]
      simp [named, String.append_assoc]
    · rw [wordCount_cells hkind.2]
      rfl
    · obtain ⟨-, i, -, hname⟩ := mem_cells hs
      exact ⟨i, hname⟩

/-! ## Structs -/

def memberName (name : String) (member : Slot) : String :=
  if member.name.isEmpty then name else name ++ "_" ++ member.name

theorem exists_memberName (name : String) (member : Slot) :
    ∃ rest, memberName name member = name ++ rest := by
  unfold memberName
  split
  · exact ⟨"", by simp⟩
  · exact ⟨"_" ++ member.name, by simp [String.append_assoc]⟩

theorem memberName_under {s h : Slot} {rest : String} (hs : s.name = h.name ++ "_" ++ rest)
    (name : String) :
    ∃ rest, memberName name s = memberName name h ++ "_" ++ rest := by
  have hne : s.name.isEmpty = false := by
    simp [hs]
  unfold memberName
  rw [if_neg (by simp [hne]), hs]
  split
  · next hempty =>
    rw [String.isEmpty_iff.mp hempty]
    exact ⟨"_" ++ rest, by simp [String.append_assoc]⟩
  · exact ⟨rest, by simp [String.append_assoc]⟩

theorem mem_instantiate {s : Slot} (h : s ∈ instantiate place shape name) :
    s.asmName = place.stem ++ s.name ∧ ∃ rest, s.name = name ++ rest := by
  obtain ⟨member, -, rfl⟩ := List.mem_map.mp h
  exact ⟨rfl, exists_memberName name member⟩

theorem wordCount_instantiate (hshape : shape.Laid) :
    wordCount ((instantiate place shape name).map Slot.kind) = shape.template.size := by
  have hkinds : (instantiate place shape name).map Slot.kind =
      (shape.template :: shape.members).map Slot.kind := by
    simp [instantiate]
  rw [hkinds, hshape.size, List.map_cons, hshape.kind, wordCount_cons]
  exact Nat.zero_add _

theorem blocks_instantiate (hshape : shape.Laid) : Blocks (instantiate place shape name) := by
  refine ⟨fun hkind => absurd (hshape.kind.symm.trans hkind) (by simp), ?_⟩
  refine hshape.blocks.transport (R := fun s s' => s ∈ shape.members ∧ s'.kind = s.kind ∧
    s'.item = s.item ∧ s'.asmName = place.stem ++ memberName name s) (fun h => h.2.1)
    (fun h => h.2.2.1) ?_ ?_
  · rintro s s' h h' ⟨hs, -, -, hname⟩ ⟨hh, -, -, hhname⟩ ⟨rest, hrest⟩
    rw [hshape.names s hs, hshape.names h hh] at hrest
    obtain ⟨rest', hrest'⟩ := memberName_under hrest name
    exact ⟨rest', by rw [hname, hhname, hrest']; simp [String.append_assoc]⟩
  · rw [List.forall₂_map_right_iff, List.forall₂_same]
    exact fun s hs => ⟨hs, rfl, rfl, rfl⟩

theorem laidBy_instantiate (hshape : shape.Laid) : LaidBy place (instantiate place shape name) :=
  ⟨blocks_instantiate hshape, fun _ hs => (mem_instantiate hs).1⟩

theorem wordCount_elements {indexes : List Nat} {name : Nat → String} (hshape : shape.Laid) :
    wordCount ((indexes.flatMap fun i => instantiate place shape (name i)).map Slot.kind) =
      shape.template.size * indexes.length := by
  induction indexes with
  | nil => rfl
  | cons i indexes ih =>
    rw [List.flatMap_cons, List.map_append, wordCount_append, wordCount_instantiate hshape, ih,
      List.length_cons, Nat.mul_succ, Nat.add_comm]

theorem laidBy_struct {structName : String} {line : Line} {shape? : Option StructShape}
    (hshape : ∀ shape ∈ shape?, shape.Laid)
    (h : d.struct frame structName line shape? = .ok declared) :
    LaidBy frame.place declared.slots := by
  obtain ⟨_, -, rfl⟩ | ⟨S, hS, rfl⟩ | ⟨S, hS, _, total, _, -, -, hsize, htotal, rfl, rfl⟩ :=
    struct_eq_ok h
  · refine ⟨blocks_of_not_array fun s hs => ?_, fun s hs => ?_⟩ <;>
      obtain rfl := List.mem_singleton.mp hs
    · simp
    · rfl
  · exact laidBy_instantiate (hshape S hS)
  · obtain ⟨count, rfl⟩ := arrayTotal?_eq_some htotal
    have hlaid := hshape S hS
    have hcount : (S.template.size * count + 1 - 1) / S.template.size = count := by
      rw [Nat.add_sub_cancel, Nat.mul_div_cancel_left _ (Nat.pos_of_ne_zero hsize)]
    refine LaidBy.cons ⟨Blocks.flatMap fun i _ => blocks_instantiate hlaid, fun s hs => ?_⟩ rfl
      ⟨⟨_, rfl, ?_⟩, fun s hs => ?_⟩
    · obtain ⟨i, -, hs⟩ := List.mem_flatMap.mp hs
      exact (mem_instantiate hs).1
    · rw [wordCount_elements hlaid, hcount, List.length_range]
    · obtain ⟨i, -, hs⟩ := List.mem_flatMap.mp hs
      obtain ⟨hasm, rest, hname⟩ := mem_instantiate hs
      exact ⟨toString i ++ rest, by simp [hasm, hname, named, String.append_assoc, toString]⟩

end Declarator

/-! ## Phrases and structs -/

theorem Catalog.Laid.append {c c' : Catalog} (h : c.Laid) (h' : Catalog.Laid c') :
    Catalog.Laid (c ++ c') :=
  fun shape hs => (List.mem_append.mp hs).elim (h shape) (h' shape)

theorem keeps_laid_walkPhrase (frame : PhraseFrame) (tokens : List Token) :
    Keeps Catalog.Laid (walkPhrase frame .idle false false "" tokens) (LaidBy frame.place) := by
  refine keeps_walkPhrase_of (Q := fun _ => LaidBy frame.place) frame (fun c shapes hc _ => ?_)
    (fun _ => ⟨trivial, by simp⟩) LaidBy.append (fun _ h => h)
    (fun t d register b declared _ _ hd => Declarator.laidBy_base hd) ?_ .idle false false "" tokens
  · refine hc.append fun shape hshape => ?_
    simp at hshape
  · intro c t d name line declared hc _ _ hd
    exact Declarator.laidBy_struct
      (fun shape hshape => hc shape (Catalog.mem_of_findStruct? hshape)) hd

theorem keeps_laid_defineStruct (place : Place) (name : String) (members : List Token)
    (line : Line) :
    Keeps Catalog.Laid (Layout.defineStruct place name members line) fun _ => True := by
  unfold Layout.defineStruct
  refine keeps_bind keeps_get fun c _ => ?_
  dsimp only
  split
  · exact keeps_throw _
  refine keeps_bind (keeps_laid_walkPhrase _ _) fun slots hslots => ?_
  refine keeps_modify fun c hc => hc.append fun shape hshape => ?_
  simp only [List.mem_singleton, Shape.struct.injEq] at hshape
  subst hshape
  have hsize (slots : List Slot) :
      slots.foldr (·.kind.width + ·) 0 = wordCount (slots.map Slot.kind) := by
    induction slots with
    | nil => rfl
    | cons s rest ih => rw [List.foldr_cons, ih, List.map_cons, wordCount_cons]
  exact ⟨hslots.1, fun s hs => by simpa using hslots.2 s hs, hsize slots, rfl, rfl⟩

/-! ## Tables -/

/-- A table in which each array is followed by its words and holds the address of the first. -/
structure Table.Laid (t : Table) : Prop where
  layout : t.LaidOut
  blocks : Blocks t.slots
  contents : ∀ s ∈ t.slots, s.kind = .array →
    ∃ a, s.address = some a ∧ s.content = some (Hex.ofWord (UInt64.ofNat (a + 1)))

theorem Table.forall₂_placedFrom (first : Nat) (slots : List Slot) :
    List.Forall₂ (fun s s' => ∃ a, s' = placed s a) slots (placedFrom first slots) := by
  induction slots generalizing first with
  | nil => exact .nil
  | cons s rest ih => exact .cons ⟨first, rfl⟩ (ih _)

theorem Table.Laid.append {t : Table} (h : t.Laid) (hslots : Blocks slots)
    (hnone : (t.append slots).2 = none) : (t.append slots).1.Laid := by
  have hcontents : ∀ s ∈ (t.append slots).1.slots, s.kind = .array →
      ∃ a, s.address = some a ∧ s.content = some (Hex.ofWord (UInt64.ofNat (a + 1))) :=
    Table.forall_append h.contents fun s _ a hs => ⟨a, rfl, if_pos hs⟩
  refine ⟨h.layout.append slots, ?_, hcontents⟩
  rw [Table.append_eq_of_none hnone]
  refine h.blocks.append (hslots.transport ?_ ?_ ?_ (Table.forall₂_placedFrom t.next slots))
  · rintro s _ ⟨a, rfl⟩
    rfl
  · rintro s _ ⟨a, rfl⟩
    rfl
  · rintro s _ x _ ⟨a, rfl⟩ ⟨b, rfl⟩ hunder
    exact hunder

/-! ## Sessions -/

structure Session.Laid (s : Session) : Prop where
  table : s.table.Laid
  catalog : s.catalog.Laid

namespace Session

variable {place : Place}

theorem laid_start {options : Options} {s : Session} (h : start options = .ok s) : s.Laid := by
  have hnone := fun x hx => (kind_of_start h x hx).2
  obtain ⟨-, rfl⟩ := start_eq_ok h
  exact ⟨⟨Table.laidOut_empty.append _, blocks_of_not_array hnone,
    fun s hs harray => absurd harray (hnone s hs)⟩, fun shape hshape => by simp at hshape⟩

variable {s t : Session}

theorem Laid.liftLayout {α : Type} {step : Layout α} {Q : α → Prop} {a : α} (hs : s.Laid)
    (hstep : Keeps Catalog.Laid step Q) (h : result (liftLayout step) s = (.ok a, t)) :
    t.Laid ∧ Q a := by
  obtain ⟨hcatalog, hQ⟩ := hstep s.catalog hs.catalog
  rw [result_liftLayout] at h
  obtain ⟨ha, rfl⟩ := Prod.mk.inj h
  exact ⟨⟨hs.table, hcatalog⟩, hQ a ha⟩

theorem Laid.declare {tokens : List Token} {slots : List Slot} (hs : s.Laid)
    (h : result (Session.declare place tokens) s = (.ok slots, t)) : t.Laid := by
  unfold Session.declare at h
  obtain ⟨declared, u, hlift, h⟩ := result_bind_eq_ok.mp h
  obtain ⟨hu, hdeclared⟩ := hs.liftLayout (keeps_laid_walkPhrase { place } tokens) hlift
  simp only [result_bind, result_get, result_set] at h
  split at h
  · next hnone =>
    obtain ⟨-, rfl⟩ := Prod.mk.inj h
    exact ⟨hu.table.append hdeclared.1 hnone, hu.catalog⟩
  · simp at h

theorem Laid.define {definition : Definition} (hs : s.Laid)
    (h : result (Session.define place definition) s = (.ok (), t)) : t.Laid := by
  rcases definition with tokens | ⟨name, members, line⟩
  · obtain ⟨slots, w, hdeclare, hpure⟩ := result_bind_eq_ok.mp h
    obtain ⟨-, rfl⟩ := Prod.mk.inj hpure
    exact hs.declare hdeclare
  · exact (hs.liftLayout (keeps_laid_defineStruct place name members line) h).1

theorem Laid.defineAll {body : List Stmt} (hs : s.Laid)
    (h : result (Session.defineAll place body) s = (.ok (), t)) : t.Laid :=
  result_forM (P := Session.Laid) (fun _ _ _ _ hu hv => hu.define hv) hs h

theorem Laid.defineFunction {f : Function} (hs : s.Laid)
    (h : result (Session.defineFunction f) s = (.ok (), t)) : t.Laid := by
  have hrest {arguments : List Slot} {u : Session} (hu : u.Laid)
      (h : result (do
        modify fun s => { s with functions := s.functions ++ [signatureOf f arguments] }
        Session.defineAll (.function f.name) f.body) u = (.ok (), t)) : t.Laid := by
    simp only [result_bind, result_modify] at h
    refine Laid.defineAll ?_ h
    exact ⟨hu.table, hu.catalog⟩
  unfold Session.defineFunction at h
  simp only [result_bind, result_get] at h
  split at h
  · simp at h
  · split at h
    · exact hrest hs (by simpa using h)
    · obtain ⟨arguments, u, hdeclare, h⟩ := result_bind_eq_ok.mp h
      exact hrest (hs.declare hdeclare) h

theorem Laid.build {program : Program} (hs : s.Laid)
    (h : result (Session.build program) s = (.ok (), t)) : t.Laid := by
  obtain ⟨_, u, hmain, hfunctions⟩ := result_bind_eq_ok.mp h
  exact result_forM (P := Session.Laid) (fun f _ _ _ hs h => hs.defineFunction h)
    (hs.defineAll hmain) hfunctions

end Session

end Flatword
