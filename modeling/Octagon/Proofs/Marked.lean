import Octagon.Links.Marked
import Octagon.Proofs.Links

/-!
What the walks along links have in common. The walk with marks comes to its end without a limit, as
it marks another vertex in each turn, and shows the cycle that the walk with a list finds. It finds
one exactly where the links do not come to a vertex without one, and it is the cycle of the first
vertex that the way back comes to twice.
-/

namespace Octagon

variable {n : Nat}

namespace MarkedWalk

variable {links : Links n} {visited : VertexMap n Bool} {v : Fin n}

theorem step_of_visited (h : visited v = true) : step links ⟨visited, v⟩ = none := by
  simp only [step, h, if_true]

theorem step_of_unlinked (h : links v = none) : step links ⟨visited, v⟩ = none := by
  simp only [step, h, Option.map_none, ite_self]

theorem step_of_link {u : Fin n} (h : visited v = false) (hu : links v = some u) :
    step links ⟨visited, v⟩ = some ⟨visited.set v true, u⟩ := by
  simp only [step, h, hu, Option.map_some, Bool.false_eq_true, if_false]

/-- Turn by turn the walk follows the one that lists what it has seen: by induction on the vertices
that are left to mark, where those marked are the ones in the list. -/
theorem exists_halt (last : Fin n) : ∀ (steps : Nat) {seen : List (Fin n)} {v : Fin n}
    {visited : VertexMap n Bool}, (∀ u, visited u = true ↔ u ∈ seen) → seen.Nodup →
    n ≤ seen.length + steps →
      ∃ t, StateTransition.Reaches (step links) ⟨visited, v⟩ t ∧ step links t = none ∧
        t.cycle links last = links.repeatFrom last steps seen v >>= fun u => links.trace u u
  | steps, seen, v, visited, hmarks, hn, hlen => by
      by_cases hv : v ∈ seen
      · have hvisited : visited v = true := (hmarks v).2 hv
        refine ⟨⟨visited, v⟩, .refl, step_of_visited hvisited, ?_⟩
        have hrepeat : links.repeatFrom last steps seen v = .ok v := by
          cases steps with
          | zero => rfl
          | succ steps => rw [Links.repeatFrom, if_pos hv]
        rw [hrepeat]
        exact if_pos hvisited
      have hvisited : visited v = false := by rwa [← hmarks v, Bool.not_eq_true] at hv
      cases steps with
      | zero => exact absurd (Links.mem_of_le_length hn hlen v) hv
      | succ steps =>
        cases hu : links v with
        | none =>
          refine ⟨⟨visited, v⟩, .refl, step_of_unlinked hu, ?_⟩
          simp only [cycle, hvisited, Links.repeatFrom, if_neg hv, hu]
          rfl
        | some u =>
          have hnext : ∀ x, visited.set v true x = true ↔ x ∈ v :: seen := by
            intro x
            rw [VertexMap.get_set, List.mem_cons, ← hmarks x]
            split
            · simp [*]
            · rename_i hne
              simp [Ne.symm hne]
          obtain ⟨t, hreach, hend, ht⟩ := exists_halt last steps hnext (List.nodup_cons.2 ⟨hv, hn⟩) (by
            rw [List.length_cons]
            omega)
          refine ⟨t, .head (step_of_link hvisited hu) hreach, hend, ?_⟩
          rw [ht, Links.repeatFrom, if_neg hv, hu]

/-- The walk is over after finitely many turns, and shows the cycle that the links run into. -/
theorem exists_cycle_eq (links : Links n) (last : Fin n) :
    ∃ t, StateTransition.Reaches (step links) (start last) t ∧ step links t = none ∧
      t.cycle links last = links.cycle last :=
  exists_halt last n (by simp) List.nodup_nil (by simp)

end MarkedWalk

namespace Links

variable {links : Links n} {last : Fin n}

/-- The links run into a cycle exactly where the way back never ends. -/
theorem leadsIntoCycle_iff : links.leadsIntoCycle last = true ↔
    ¬∃ k stop, links.back k last = some stop ∧ links stop = none := by
  constructor
  · rintro h ⟨k, stop, hback, hstop⟩
    have hnext := isSome_back h (k + 1)
    rw [back_add, hback, Option.bind_some, back, hstop] at hnext
    cases hnext
  · intro h
    rcases links.firstRepeat_cases last with ⟨u, -, hrepeat⟩ | ⟨stop, k, -, hend⟩
    · exact hrepeat.leadsIntoCycle
    · exact absurd ⟨k, stop, hend⟩ h

/-- The cycle that is found is that of the first vertex to repeat. -/
theorem cycle_eq_ok {path : List (Fin n)} (h : links.cycle last = .ok path) :
    ∃ v vs, path = v :: vs ++ [v] ∧ links.FirstRepeat last v ∧ links.Linked path ∧
      (v :: vs).Nodup := by
  rcases links.firstRepeat_cases last with ⟨v, hv, hrepeat⟩ | ⟨stop, k, herror, -⟩
  · have htrace : links.trace v v = .ok path := by
      rw [cycle, hv] at h
      exact h
    obtain ⟨l, rfl, hl, hn, hhead⟩ := trace_eq_ok htrace
    obtain ⟨vs, rfl⟩ := List.head?_eq_some_iff.1 hhead
    exact ⟨v, vs, rfl, hrepeat, hl, hn⟩
  · rw [cycle, herror] at h
    cases h

/-- The walks agree. The way back from a vertex either never ends; then the walk with marks is over
nevertheless and finds the cycle of the first vertex that repeats, which repeats no other. Or it
comes to a vertex without a link, and there the walk with marks gives up. -/
theorem walks_agree (links : Links n) (last : Fin n) :
    (links.leadsIntoCycle last = true ↔
      ¬∃ k stop, links.back k last = some stop ∧ links stop = none) ∧
    (∃ t, StateTransition.Reaches (MarkedWalk.step links) (.start last) t ∧
      t.step links = none ∧ t.cycle links last = links.cycle last) ∧
    ((∃ e, links.cycle last = .error e) ↔ links.leadsIntoCycle last = false) ∧
    ((∃ v vs, links.leadsIntoCycle last = true ∧ links.cycle last = .ok (v :: vs ++ [v]) ∧
        links.FirstRepeat last v ∧ links.Linked (v :: vs ++ [v]) ∧ (v :: vs).Nodup) ∨
      ∃ (stop : Fin n) (k : Nat), links.leadsIntoCycle last = false ∧
        links.cycle last = .error (.acyclic last stop) ∧ links.back k last = some stop ∧
        links stop = none) := by
  refine ⟨leadsIntoCycle_iff, MarkedWalk.exists_cycle_eq links last, ?_⟩
  cases hc : links.leadsIntoCycle last with
  | true =>
    obtain ⟨path, hpath⟩ := exists_cycle_eq_ok hc
    obtain ⟨v, vs, rfl, hrepeat, hl, hn⟩ := cycle_eq_ok hpath
    refine ⟨by simp [hpath], .inl ⟨v, vs, rfl, hpath, hrepeat, hl, hn⟩⟩
  | false =>
    rcases links.firstRepeat_cases last with ⟨u, -, hrepeat⟩ | ⟨stop, k, herror, hback, hstop⟩
    · rw [hrepeat.leadsIntoCycle] at hc
      cases hc
    · have hcycle : links.cycle last = .error (.acyclic last stop) := by
        rw [cycle, herror]
        rfl
      exact ⟨by simp [hcycle], .inr ⟨stop, k, rfl, hcycle, hback, hstop⟩⟩

/-- The way back from 4 comes to 3 first, and it is 3 that repeats. -/
example : Links.cycle (fun v => #v[none, some 3, some 1, some 2, some 3].get v) (4 : Fin 5) =
    .ok [3, 1, 2, 3] := by
  decide

end Links

end Octagon
