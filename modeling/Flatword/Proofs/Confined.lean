import Flatword.Proofs.Access

/-!
# Members stay in their struct

The member of a struct value is looked for under the joined names of both, among all slots of the
table. Every member of the struct is found there, among the words of the value. Under another name only
a slot that does not belong to the value can be found.
-/

namespace Flatword

namespace StructShape

variable {name : String} {members : List Slot} {first distance : Nat} {template : Slot}

theorem findMember?_le (h : findMember? name first members = some (distance, template)) :
    distance + template.kind.width ≤ first + wordCount (members.map Slot.kind) := by
  obtain ⟨front, back, rfl, -, rfl⟩ := findMember?_eq_some h
  rw [List.map_append, List.map_cons, wordCount_append, wordCount_cons]
  omega

theorem findMember?_eq_none (h : findMember? name first members = none) :
    ∀ m ∈ members, m.name ≠ name := by
  induction members generalizing first with
  | nil => simp
  | cons m rest ih =>
    rw [findMember?] at h
    split at h
    · simp at h
    next hname => exact List.forall_mem_cons.mpr ⟨hname, ih h⟩

end StructShape

namespace Session.Arrayed

variable {s : Session}

theorem exists_value (hs : s.Arrayed) {o : Slot} (ho : o ∈ s.table.slots) (hkind : o.kind = .struct) :
    ∃ S front body back, o.shape = some S.name ∧ Shape.struct S ∈ s.catalog ∧
      s.table.slots = front ++ o :: (body ++ back) ∧ List.Forall₂ o.Carries S.members body := by
  obtain ⟨front, rest, hsplit⟩ := List.append_of_mem ho
  have harranged := hs.table
  rw [hsplit, List.map_append, List.map_cons] at harranged
  obtain ⟨S, forms, hS, hvalue, more, hforms⟩ := harranged.followed.struct hkind
  obtain ⟨body, back, rfl, rfl, -⟩ := List.map_eq_append_iff.mp hforms.symm
  refine ⟨S, front, body, back, hvalue.shape, hS, hsplit, ?_⟩
  have hmembers := hvalue.members
  rw [List.forall₂_map_right_iff] at hmembers
  exact hmembers.imp fun _ _ h => ⟨h.name, h.asmName, h.kind, h.type, h.item, h.shape⟩

end Session.Arrayed

theorem exists_mem_of_carries {head y : Slot} {members body : List Slot}
    (h : List.Forall₂ head.Carries members body) (hy : y ∈ body) :
    ∃ template ∈ members, head.Carries template y := by
  induction h with
  | nil => simp at hy
  | cons hcarries _ ih =>
    rcases List.mem_cons.mp hy with rfl | hy
    · exact ⟨_, List.mem_cons_self, hcarries⟩
    · obtain ⟨template, htemplate, hcarries⟩ := ih hy
      exact ⟨template, List.mem_cons_of_mem _ htemplate, hcarries⟩

/-- A slot under the name of a struct value, joined with what is no member, has no word in common with
the value. -/
theorem Table.LaidOut.apart_of_member?_eq_none {t : Table} (ht : t.LaidOut) {c : Catalog}
    {S : StructShape} (hS : S.Arrayed c) {o y : Slot} {front body back : List Slot}
    (hsplit : t.slots = front ++ o :: (body ++ back)) (hkind : o.kind = .struct)
    (hbody : List.Forall₂ o.Carries S.members body) {member : String} (hnone : S.member? member = none)
    (hy : y ∈ t.slots) (hname : y.asmName = o.asmName ++ "_" ++ member) {a b : Nat}
    (ha : o.address = some a) (hb : y.address = some b) :
    b + y.kind.width ≤ a ∨ a + S.template.size ≤ b := by
  have hnotHead : y ≠ o := by
    rintro rfl
    have hlength := congrArg String.length hname
    simp only [String.length_append] at hlength
    have : "_".length = 1 := rfl
    omega
  have hnotMember : y ∉ body := by
    intro hmem
    obtain ⟨template, htemplate, hcarries⟩ := exists_mem_of_carries hbody hmem
    have hjoined := hcarries.asmName.symm.trans hname
    exact StructShape.findMember?_eq_none hnone template htemplate
      ((String.append_right_inj _).mp hjoined)
  have hwords : wordCount (body.map Slot.kind) = S.template.size := by
    rw [map_kind_of_carries hbody, hS.size]
  rw [hsplit, List.mem_append, List.mem_cons, List.mem_append] at hy
  rcases hy with hy | rfl | hy | hy
  · left
    obtain ⟨before, after, rfl⟩ := List.append_of_mem hy
    have hyaddress := ht.address_eq (hsplit.trans (List.append_assoc ..))
    have hoaddress := ht.address_eq hsplit
    rw [hb] at hyaddress
    rw [ha, List.map_append, List.map_cons, wordCount_append, wordCount_cons] at hoaddress
    have := Option.some.inj hyaddress
    have := Option.some.inj hoaddress
    omega
  · exact absurd rfl hnotHead
  · exact absurd hy hnotMember
  · right
    obtain ⟨before, after, rfl⟩ := List.append_of_mem hy
    have hsplit' : t.slots = front ++ o :: ((body ++ before) ++ y :: after) := by
      rw [hsplit, List.append_assoc]
    have hyaddress := ht.address_behind hsplit' ha
    rw [hb, List.map_append, wordCount_append, hwords] at hyaddress
    have := Option.some.inj hyaddress
    omega

namespace Lower

theorem outcome_memberOf_of_not_found {f : Frame} {u : Scope} (leftSide : Bool) {o : Slot}
    {member : String} (hkind : o.kind = .struct) (ho : o.offset = none)
    (h : ∀ y ∈ u.session.table.slots, y.asmName ≠ o.asmName ++ "_" ++ member) :
    outcome (memberOf leftSide o member) f u =
      (.error (.atLine f.line (.missingMember member o.name)), u) := by
  have hfind : u.session.table.findAsm? s!"{o.asmName}_{member}" = none :=
    List.find?_eq_none.mpr fun y hy => by simpa [toString] using h y hy
  have hlookup : outcome (onSide leftSide (lookupAsm? s!"{o.asmName}_{member}")) f u = (.ok none, u) := by
    simp only [onSide, outcome_withReader, lookupAsm?, outcome_bind, outcome_get, hfind, outcome_pure]
  simp only [memberOf, hkind, ho, outcome_bind, hlookup]
  rfl

end Lower

theorem Session.Defined.offset_of_bare {options : Options} {defined : List (Place × Definition)}
    {s : Session} (h : Session.Defined options defined s) {t : Table} (ht : t.bare = s.table.bare)
    {x : Slot} (hx : x ∈ t.slots) : x.offset = none := by
  have hmem : x.offset ∈ t.slots.map Slot.offset := List.mem_map_of_mem hx
  rw [Table.map_of_bare ht _ fun _ => rfl] at hmem
  obtain ⟨y, hy, hyx⟩ := List.mem_map.mp hmem
  exact hyx.symm.trans (h.offset_eq_none.2 y hy)

open Lower in
/-- A member is looked for in the whole table. Every member of its struct is found, at its distance
from the head and inside the words of the value. Under any other name the lookup succeeds exactly if
some slot has the joined names, gives that slot, and leaves the value; otherwise it fails. -/
theorem Session.Defined.member_confined_unless_joined {options : Options}
    {defined : List (Place × Definition)} {s : Session} (h : Session.Defined options defined s)
    {u : Scope} (htable : u.session.table.bare = s.table.bare) (hcatalog : u.session.catalog = s.catalog)
    {o : Slot} (ho : o ∈ u.session.table.slots) (hkind : o.kind = .struct) :
    ∃ S a, o.shape = some S.name ∧ u.session.catalog.findStruct? S.name "" = some S ∧
      o.address = some a ∧ ∀ member f leftSide,
        (∀ distance template, S.member? member = some (distance, template) →
          distance + template.kind.width ≤ S.template.size ∧
          ∃ x t, Gives (memberOf leftSide o member) f u ⟨x, []⟩ t ∧ x.kind = template.kind ∧
            x.address = some (a + distance)) ∧
        (S.member? member = none →
          (∀ y ∈ u.session.table.slots, y.asmName = o.asmName ++ "_" ++ member →
            (∃ t, Gives (memberOf leftSide o member) f u ⟨y, []⟩ t) ∧
            ∀ b, y.address = some b → b + y.kind.width ≤ a ∨ a + S.template.size ≤ b) ∧
          ((∀ y ∈ u.session.table.slots, y.asmName ≠ o.asmName ++ "_" ++ member) →
            ∃ failure, outcome (memberOf leftSide o member) f u = (.error failure, u) ∧
              failure.report = ⟨.addressing, .atLine f.line,
                s!"Member '{member}' not found in struct '{o.name}'."⟩)) := by
  obtain ⟨notes, hnotes, -⟩ := h.exists_accounted
  have harrayed : u.session.Arrayed := hnotes.arrayed.of_bare htable hcatalog
  have hlayout : u.session.table.LaidOut := hnotes.laidOut.of_bare htable
  have hoffset : o.offset = none := h.offset_of_bare htable ho
  obtain ⟨S, front, body, back, hshape, hS, hsplit, hbody⟩ := harrayed.exists_value ho hkind
  obtain ⟨S', a, hshape', hS', ha, hmembers⟩ := harrayed.findAsm?_member hlayout ho hkind
  have hname : S'.name = S.name := Option.some.inj (hshape'.symm.trans hshape)
  obtain rfl : S' = S :=
    Option.some.inj (hS'.symm.trans (hname ▸ harrayed.separate.findStruct?_eq hS))
  refine ⟨S', a, hshape, hS', ha, fun member f leftSide => ⟨fun distance template hmember => ?_,
    fun hnone => ⟨fun y hy hyname => ⟨?_, fun b hb => ?_⟩, fun habsent => ?_⟩⟩⟩
  · refine ⟨?_, ?_⟩
    · have hle := StructShape.findMember?_le hmember
      rwa [Nat.zero_add, ← (harrayed.structs S' hS).size] at hle
    · obtain ⟨x, hx, hcarries, hxaddress⟩ := hmembers hmember
      obtain ⟨t, ht⟩ := gives_memberOf f leftSide hkind hoffset hx
      exact ⟨x, t, ht, hcarries.kind, hxaddress⟩
  · exact gives_memberOf f leftSide hkind hoffset (hyname ▸ hlayout.findAsm?_eq_some hy)
  · exact hlayout.apart_of_member?_eq_none (harrayed.structs S' hS) hsplit hkind hbody hnone hy hyname
      ha hb
  · exact ⟨_, outcome_memberOf_of_not_found leftSide hkind hoffset habsent, rfl⟩

/-- A struct `S` with one member `a`, a value `s` of it, and a variable `s_x`. -/
def joinedName : List (Place × Definition) :=
  [(.global, .struct "S" [.keyword "long" 1, .ident "a" 1] 1),
    (.global, Definition.variables [.struct "S" 2, .ident "s" 2]),
    (.global, Definition.variables [.keyword "long" 3, .ident "s_x" 3])]

/-- The struct has no member `x`, and yet `s.x` is found: it is the variable behind the value. -/
theorem joinedName_found_outside : ∃ s, Session.Defined {} joinedName s ∧
    ∃ o ∈ s.table.slots, ∃ (S : StructShape) (y : Slot) (t : Scope), o.asmName = "s" ∧
      o.address = some 3 ∧ o.shape = some S.name ∧ S.member? "x" = none ∧
      Gives (Lower.memberOf false o "x") { line := 4 } (Scope.start s) ⟨y, []⟩ t ∧
      y.asmName = "s_x" ∧ ∃ b, y.address = some b ∧ 3 + S.template.size ≤ b := by
  have hfound : (Session.after? {} joinedName).any fun s =>
      (s.table.slots.any fun o => o.kind = .struct && o.asmName = "s" && o.address = some 3 &&
        o.shape.any fun name => (s.catalog.findStruct? name "").any fun S =>
          (S.member? "x").isNone) &&
      s.table.slots.any fun y => y.kind = .long && y.asmName = "s_x" && y.address = some 4 := by
    decide +kernel
  obtain ⟨s, hs, hfound⟩ := (Option.any_eq_true _ _).mp hfound
  simp only [Bool.and_eq_true, List.any_eq_true, Option.any_eq_true, decide_eq_true_eq,
    Option.isNone_iff_eq_none] at hfound
  obtain ⟨⟨o, ho, ⟨⟨hkind, hname⟩, haddress⟩, name, hshape, S, hS, hnone⟩, y, hy, ⟨hykind, hyname⟩,
    hyaddress⟩ := hfound
  have hs := Session.defined_of_after? hs
  obtain ⟨S', a, hshape', hS', ha, hmembers⟩ :=
    hs.member_confined_unless_joined (u := Scope.start s) rfl rfl ho hkind
  obtain rfl : name = S'.name := Option.some.inj (hshape.symm.trans hshape')
  obtain rfl : S' = S := Option.some.inj (hS'.symm.trans hS)
  obtain rfl : a = 3 := Option.some.inj (ha.symm.trans haddress)
  have hjoined : y.asmName = o.asmName ++ "_" ++ "x" := by rw [hyname, hname]; rfl
  obtain ⟨⟨t, ht⟩, hapart⟩ := ((hmembers "x" { line := 4 } false).2 hnone).1 y hy hjoined
  refine ⟨s, hs, o, ho, S', y, t, hname, ha, hshape', hnone, ht, hyname, 4, hyaddress, ?_⟩
  rcases hapart 4 hyaddress with hbefore | hbehind
  · rw [hykind] at hbefore
    exact absurd hbefore (by decide)
  · exact hbehind

end Flatword
