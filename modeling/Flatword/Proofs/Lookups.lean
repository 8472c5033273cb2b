import Mathlib.Data.List.Basic
import Mathlib.Logic.Relation
import Flatword.Source.Expr

/-!
# Lookups inside expressions

Whether an expression looks at a variable is asked in two ways: `references` searches for a lookup of the
name, and `conflicts` goes over the list of all lookups. Both find the lookups that stand inside the
expression, at any depth.
-/

namespace Flatword

/-- The expression in brackets. -/
def Access.index? : Access → Option Expr
  | index e => some e
  | member _ | arrow _ => none

namespace Expr

/-- The expressions right below an expression. -/
def parts : Expr → List Expr
  | constant _ _ _ => []
  | lookup _ path _ => path.filterMap Access.index?
  | call _ args _ => args
  | unary _ operand _ => [operand]
  | binary _ left right _ | compare _ left right _ | logical _ left right _ => [left, right]
  | assign _ target value _ => [target, value]
  | step _ _ target _ => [target]

/-- An expression stands inside another one, or is that one itself. -/
def Inside : Expr → Expr → Prop :=
  Relation.ReflTransGen fun part e => part ∈ e.parts

def ownLookup : Expr → List (String × List Access)
  | lookup name path _ => [(name, path)]
  | _ => []

theorem sizeOf_of_mem_parts {part e : Expr} (h : part ∈ e.parts) : sizeOf part < sizeOf e := by
  cases e with
  | lookup name path line =>
    obtain ⟨access, haccess, hindex⟩ := List.mem_filterMap.mp h
    have hlt := List.sizeOf_lt_of_mem haccess
    cases access <;> simp [Access.index?] at hindex
    subst hindex
    simp at hlt ⊢
    omega
  | call name args line =>
    have hlt : sizeOf part < sizeOf args := List.sizeOf_lt_of_mem h
    simp
    omega
  | _ =>
    simp [parts] at h
    try rcases h with rfl | rfl
    all_goals simp_all
    all_goals try omega

theorem induction_parts {P : Expr → Prop} (h : ∀ e : Expr, (∀ part ∈ e.parts, P part) → P e) (e : Expr) :
    P e :=
  h e fun part hpart =>
    have := sizeOf_of_mem_parts hpart
    induction_parts h part
termination_by sizeOf e

theorem lookups_eq (e : Expr) : e.lookups = e.ownLookup ++ e.parts.flatMap lookups := by
  cases e with
  | lookup name path line =>
    rw [lookups, ownLookup, parts, List.singleton_append]
    congr 1
    induction path with
    | nil => rfl
    | cons access path ih =>
      cases access <;> simp [pathLookups, List.filterMap_cons, Access.index?, ih]
  | call name args line =>
    show argsLookups args = args.flatMap lookups
    induction args with
    | nil => rfl
    | cons arg args ih => rw [argsLookups, ih, List.flatMap_cons]
  | _ => simp [lookups, ownLookup, parts]

theorem references_eq (x : String) (e : Expr) :
    e.references x = (e.ownLookup.any (·.1 == x) || e.parts.any (references x)) := by
  cases e with
  | lookup name path line =>
    rw [references, ownLookup, parts, List.any_cons, List.any_nil, Bool.or_false]
    congr 1
    induction path with
    | nil => rfl
    | cons access path ih =>
      cases access <;> simp [pathReferences, List.filterMap_cons, Access.index?, ih]
  | call name args line =>
    show argsReferences x args = args.any (references x)
    induction args with
    | nil => rfl
    | cons arg args ih => rw [argsReferences, ih, List.any_cons]
  | _ => simp [references, ownLookup, parts]

theorem references_eq_any (x : String) (e : Expr) : e.references x = e.lookups.any (·.1 == x) := by
  induction e using induction_parts with
  | h e ih =>
    rw [references_eq, lookups_eq, List.any_append, List.any_flatMap]
    congr 1
    rw [Bool.eq_iff_iff, List.any_eq_true, List.any_eq_true]
    exact exists_congr fun part => and_congr_right fun hpart => by rw [ih part hpart]

theorem mem_lookups_iff {name : String} {path : List Access} {e : Expr} :
    (name, path) ∈ e.lookups ↔ ∃ line, (lookup name path line).Inside e := by
  induction e using induction_parts with
  | h e ih =>
    have hown : (name, path) ∈ e.ownLookup ↔ ∃ line, e = lookup name path line := by
      cases e <;> simp [ownLookup, eq_comm]
    simp only [lookups_eq e, List.mem_append, hown, List.mem_flatMap, Inside,
      Relation.ReflTransGen.cases_tail_iff _ _ e, exists_or]
    refine or_congr Iff.rfl ⟨?_, ?_⟩
    · rintro ⟨part, hpart, hmem⟩
      obtain ⟨line, hinside⟩ := (ih part hpart).mp hmem
      exact ⟨line, part, hinside, hpart⟩
    · rintro ⟨line, part, hinside, hpart⟩
      exact ⟨part, hpart, (ih part hpart).mpr ⟨line, hinside⟩⟩

/-- An assignment to a variable conflicts with a value exactly if the value references the variable, which
is to say that a lookup of it stands inside. An assignment to one member conflicts with a value exactly if
there is such a lookup that does not go on to another member right away. -/
theorem conflicts_iff_inside (x m : String) (line : Line) (e : Expr) :
    ((lookup x [] line).conflicts e = true ↔ e.references x = true) ∧
    (e.references x = true ↔ ∃ path line', (lookup x path line').Inside e) ∧
    ((lookup x [.member m] line).conflicts e = true ↔
      ∃ path line', (lookup x path line').Inside e ∧
        ∀ other, path.head? = some (.member other) → other = m) := by
  have hmember (path : List Access) : pathsMeet [.member m] path = true ↔
      ∀ other, path.head? = some (.member other) → other = m := by
    rcases path with _ | ⟨_ | other | _, path⟩ <;> simp [pathsMeet]
    exact eq_comm
  refine ⟨?_, ?_, ?_⟩
  · have hplain (path : List Access) : pathsMeet [] path = true := rfl
    simp only [conflicts, hplain, Bool.and_true, references_eq_any]
  · rw [references_eq_any, List.any_eq_true]
    constructor
    · rintro ⟨⟨name, path⟩, hmem, hname⟩
      obtain rfl : name = x := by simpa using hname
      exact ⟨path, mem_lookups_iff.mp hmem⟩
    · rintro ⟨path, hinside⟩
      exact ⟨(x, path), mem_lookups_iff.mpr hinside, by simp⟩
  · rw [conflicts, List.any_eq_true]
    constructor
    · rintro ⟨⟨name, path⟩, hmem, hboth⟩
      obtain ⟨rfl, hmeet⟩ : name = x ∧ pathsMeet [.member m] path = true := by simpa using hboth
      obtain ⟨line', hinside⟩ := mem_lookups_iff.mp hmem
      exact ⟨path, line', hinside, (hmember path).mp hmeet⟩
    · rintro ⟨path, line', hinside, hmeet⟩
      exact ⟨(x, path), mem_lookups_iff.mpr ⟨line', hinside⟩, by simpa using (hmember path).mpr hmeet⟩

end Expr

end Flatword
