import Fieldwatch.Notice

/-! Who sees whom, known from announced changes of sight alone: for every subject the players that
see it, in the order in which they came to see it, each once. A subject that nobody sees has no
entry. -/

namespace Fieldwatch.Interest

structure Audience where
  table : IdMap (List EntityId) := ∅

namespace Audience

variable (x : Audience)

def of (subject : EntityId) : List EntityId := x.table.getD subject []

def size : Nat := x.table.size

def isEmpty : Bool := x.table.isEmpty

def put (subject : EntityId) (list : List EntityId) : Audience :=
  if list.isEmpty then ⟨x.table.erase subject⟩ else ⟨x.table.insert subject list⟩

def observe (watcher : EntityId) (s : Sighting) : Audience :=
  match s.kind with
  | .leave => x.put s.subject ((x.of s.subject).filter (· ≠ watcher))
  | _ => if watcher ∈ x.of s.subject then x else x.put s.subject (x.of s.subject ++ [watcher])

def forget (id : EntityId) : Audience :=
  ⟨(x.table.erase id).filterMap fun _ list =>
    let rest := list.filter (· ≠ id)
    if rest.isEmpty then none else some rest⟩

theorem of_put (s t : EntityId) (list : List EntityId) :
    (x.put s list).of t = if s = t then list else x.of t := by
  rw [put]
  split
  · by_cases h : s = t <;> simp_all [of, Std.ExtTreeMap.getD_erase]
  · by_cases h : s = t <;> simp [of, Std.ExtTreeMap.getD_insert, h]

theorem of_forget (id s : EntityId) :
    (x.forget id).of s = if s = id then [] else (x.of s).filter (· ≠ id) := by
  by_cases h : s = id
  · simp [of, forget, Std.ExtTreeMap.getD_eq_getD_getElem?, Std.ExtTreeMap.getElem?_filterMap, h]
  · have he : (x.table.erase id)[s]? = x.table[s]? := by
      simp [Std.ExtTreeMap.getElem?_erase, Ne.symm h]
    simp only [of, forget, Std.ExtTreeMap.getD_eq_getD_getElem?, Std.ExtTreeMap.getElem?_filterMap',
      he, h, if_false]
    cases x.table[s]? with
    | none => rfl
    | some list =>
      simp only [Option.bind_some, Option.getD_some]
      generalize list.filter (· ≠ id) = rest
      cases rest <;> rfl

end Audience
end Fieldwatch.Interest
