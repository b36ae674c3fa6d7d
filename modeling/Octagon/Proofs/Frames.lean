import Octagon.Digraph.Frames
import Octagon.Proofs.BreadthFirst

/-!
The search with a stack of its own finds the same components as the nested visits. To push a frame
for a fresh vertex is to begin a visit: turn by turn the search comes to where the visit ends, the
frames below are as they were, and the one on top of them has what the visit returned. By induction
on the levels of the visit, and within a visit on the successors that are left to look at.
-/

namespace Octagon

namespace FrameSearch

variable {n : Nat} {g : Digraph n} {s t t' : FrameSearch n} {u v : Fin n} {c : Nat}
  {frames : List (Frame n)}

/-! ### Single turns -/

theorem step_look (hs : s.frames = ⟨v, c⟩ :: frames) (hu : (g.next v)[c]? = some u) :
    step g s = some ({ s with frames := ⟨v, c + 1⟩ :: frames }.look v u) := by
  simp only [step, hs, hu]

theorem step_leave (hs : s.frames = ⟨v, c⟩ :: frames) (hend : (g.next v)[c]? = none) :
    step g s = some (({ s with frames }.hand (s.low v)).settle v) := by
  simp only [step, hs, hend]

theorem step_start {waiting : List (Fin n)} (hs : s.frames = []) (hw : s.waiting = v :: waiting) :
    step g s = some (if s.search.marks v = .fresh then { s with waiting }.push v
      else { s with waiting }) := by
  simp only [step, hs, hw]

theorem step_done (hs : s.frames = []) (hw : s.waiting = []) : step g s = none := by
  simp only [step, hs, hw]

/-! ### What is handed down -/

theorem hand_cons (hs : s.frames = ⟨v, c⟩ :: frames) (found : Nat) :
    s.hand found = s.lower v found := by
  simp only [hand, hs]

theorem search_hand (s : FrameSearch n) (found : Nat) : (s.hand found).search = s.search := by
  unfold hand
  split <;> rfl

theorem frames_hand (s : FrameSearch n) (found : Nat) : (s.hand found).frames = s.frames := by
  unfold hand
  split <;> rfl

theorem waiting_hand (s : FrameSearch n) (found : Nat) : (s.hand found).waiting = s.waiting := by
  unfold hand
  split <;> rfl

/-- What is handed down does not depend on the numbers of other vertices. -/
theorem low_hand_congr (hframes : t.frames = s.frames) (hlow : t.low u = s.low u) (found : Nat) :
    (t.hand found).low u = (s.hand found).low u := by
  unfold hand
  rw [hframes]
  split
  · exact hlow
  · simp only [lower, VertexMap.get_set]
    split
    · rename_i heq
      rw [heq, hlow]
    · exact hlow

/-- To hand down the number of `v` itself leaves it as it is. -/
theorem low_hand_self (s : FrameSearch n) (v : Fin n) : (s.hand (s.low v)).low v = s.low v := by
  unfold hand
  split
  · rfl
  · simp only [lower, VertexMap.get_set]
    split
    · rename_i heq
      rw [heq, min_self]
    · rfl

/-! ### Successors -/

/-- The search has come from `s` as far as `search`: the frames are those of `s` again, and what had
been reached in `s` has the numbers in `low`. -/
structure Resumes (s : FrameSearch n) (search : DepthFirst n) (low : VertexMap n Nat)
    (t : FrameSearch n) : Prop where
  search_eq : t.search = search
  low_eq : ∀ u, s.search.marks u ≠ .fresh → t.low u = low u
  frames_eq : t.frames = s.frames
  waiting_eq : t.waiting = s.waiting

/-- To push a frame for `v` comes to what a visit does, and to hand its result down. -/
def Simulates (g : Digraph n) (visit : Fin n → DepthFirst n → Nat × DepthFirst n) (v : Fin n)
    (s : FrameSearch n) : Prop :=
  ∃ t, StateTransition.Reaches (step g) (s.push v) t ∧
    Resumes s (visit v s.search).2 (s.hand (visit v s.search).1).low t

section scan

variable {visit : Fin n → DepthFirst n → Nat × DepthFirst n}

/-- To look at a successor keeps what was reached. -/
theorem marks_look (low : Nat) {d : DepthFirst n}
    (hvisit : d.marks u = .fresh → DepthFirst.Visited g u d (visit u d).1 (visit u d).2)
    (hv : d.marks v ≠ .fresh) :
    (DepthFirst.look visit (low, d) u).2.marks v = d.marks v := by
  cases hmark : d.marks u with
  | fresh =>
    rw [DepthFirst.look_fresh hmark]
    exact (hvisit hmark).advances.kept v hv
  | active found => rw [DepthFirst.look_active hmark]
  | closed label => rw [DepthFirst.look_closed hmark]

/-- One successor is looked at. -/
theorem exists_look (hs : s.frames = ⟨v, c⟩ :: frames)
    (hvisit : s.search.marks u = .fresh → Simulates g visit u s) :
    ∃ t, StateTransition.Reaches (step g) (s.look v u) t ∧
      Resumes s (DepthFirst.look visit (s.low v, s.search) u).2
        (s.low.set v (DepthFirst.look visit (s.low v, s.search) u).1) t := by
  unfold look
  cases hmark : s.search.marks u with
  | fresh =>
    rw [DepthFirst.look_fresh hmark]
    have hsim := hvisit hmark
    rwa [Simulates, hand_cons hs] at hsim
  | active found =>
    rw [DepthFirst.look_active hmark]
    exact ⟨s.lower v found, .refl, rfl, fun _ _ => rfl, rfl, rfl⟩
  | closed label =>
    rw [DepthFirst.look_closed hmark]
    exact ⟨s, .refl, rfl, fun x _ => (VertexMap.get_set_get s.low v x).symm, rfl, rfl⟩

/-- All successors that are left are looked at. -/
theorem exists_scan {start : DepthFirst n} {us : List (Fin n)}
    (hvisit : ∀ u (s : FrameSearch n), s.search.Valid g → s.search.marks u = .fresh →
      s.search.numFresh ≤ (start.enter v).numFresh → Simulates g visit u s)
    (hvisited : ∀ u t, t.Valid g → t.marks u = .fresh → t.numFresh ≤ (start.enter v).numFresh →
      DepthFirst.Visited g u t (visit u t).1 (visit u t).2)
    {seen : List (Fin n)} (hs : s.frames = ⟨v, c⟩ :: frames) (hus : (g.next v).drop c = us)
    (hscan : DepthFirst.Scanned g v start seen (s.low v) s.search) :
    ∃ t c', StateTransition.Reaches (step g) s t ∧ (g.next v)[c']? = none ∧
      Resumes { s with frames := ⟨v, c'⟩ :: frames }
        (us.foldl (DepthFirst.look visit) (s.low v, s.search)).2
        (s.low.set v (us.foldl (DepthFirst.look visit) (s.low v, s.search)).1) t := by
  induction us generalizing seen s c with
  | nil =>
    refine ⟨s, c, .refl, ?_, rfl, fun x _ => ?_, hs, rfl⟩
    · exact List.getElem?_eq_none (List.drop_eq_nil_iff.1 hus)
    · simp
  | cons u us ih =>
    have hv : s.search.marks v ≠ .fresh := by simp [hscan.advances.marks_self]
    have hu : (g.next v)[c]? = some u := by
      rw [← List.head?_drop, hus, List.head?_cons]
    have hrest : (g.next v).drop (c + 1) = us := by
      rw [← List.tail_drop, hus, List.tail_cons]
    have hle := DepthFirst.numFresh_le hscan.advances.kept
    have hvisitu := fun hfresh => hvisited u _ hscan.advances.valid hfresh hle
    obtain ⟨t, hreach, hsearch, hlow, hframes, hwaiting⟩ :=
      exists_look (s := { s with frames := ⟨v, c + 1⟩ :: frames }) rfl fun hfresh =>
        hvisit u _ hscan.advances.valid hfresh hle
    have hself := hlow v hv
    rw [VertexMap.get_set_self] at hself
    have hnext := hscan.look (List.mem_of_getElem? hu) hvisitu
    rw [← hself, ← hsearch] at hnext
    obtain ⟨t', c', hreach', hend, hsearch', hlow', hframes', hwaiting'⟩ := ih hframes hrest hnext
    rw [hself, hsearch] at hsearch' hlow'
    refine ⟨t', c', .head (step_look hs hu) (hreach.trans hreach'), hend, hsearch', ?_, hframes',
      hwaiting'.trans hwaiting⟩
    intro x hx
    have hkept := marks_look (s.low v) hvisitu hx
    rw [hlow' x (hkept ▸ hx), List.foldl_cons]
    by_cases hvx : v = x
    · rw [hvx, VertexMap.get_set_self, VertexMap.get_set_self]
    · rw [VertexMap.get_set_of_ne _ hvx, VertexMap.get_set_of_ne _ hvx, hlow x hx,
        VertexMap.get_set_of_ne _ hvx]

end scan

/-! ### Visits -/

theorem frames_settle (s : FrameSearch n) (v : Fin n) : (s.settle v).frames = s.frames := by
  unfold settle
  split <;> rfl

theorem low_settle (s : FrameSearch n) (v : Fin n) : (s.settle v).low = s.low := by
  unfold settle
  split <;> rfl

theorem waiting_settle (s : FrameSearch n) (v : Fin n) : (s.settle v).waiting = s.waiting := by
  unfold settle
  split <;> rfl

/-- A vertex is left the way a visit ends: it is closed if nothing lower was met from it, and the
frame below has what was. -/
theorem exists_leave {k : Nat} (hend : (g.next v)[c]? = none) (hv : t.search.marks v = .active k)
    (ht : Resumes { s with frames := ⟨v, c⟩ :: s.frames } t.search s.low t) :
    ∃ t', step g t = some t' ∧ Resumes s
      (if t.low v = k then t.search.close v else t.search) (s.hand (t.low v)).low t' := by
  obtain ⟨-, hlow, hframes, hwaiting⟩ := ht
  refine ⟨_, step_leave hframes hend, ?_, fun u hu => ?_, ?_, ?_⟩
  · have hself : ({ t with frames := s.frames }.hand (t.low v)).low v = t.low v :=
      low_hand_self { t with frames := s.frames } v
    unfold settle
    split
    · rename_i heq
      rw [search_hand, hself, hv, Mark.active.injEq] at heq
      rw [if_pos heq.symm, search_hand]
    · rename_i hne
      rw [search_hand, hself, hv, Mark.active.injEq] at hne
      rw [if_neg (Ne.symm hne), search_hand]
  · rw [low_settle]
    refine low_hand_congr ?_ ?_ _
    · rfl
    · exact hlow u hu
  · rw [frames_settle, frames_hand]
  · rw [waiting_settle, waiting_hand]
    exact hwaiting

/-- To push a frame for a fresh vertex is to visit it. -/
theorem simulates_visit {levels : Nat} (hs : s.search.Valid g) (hv : s.search.marks v = .fresh)
    (hlevels : s.search.numFresh ≤ levels) : Simulates g (DepthFirst.visit g levels) v s := by
  induction levels generalizing v s with
  | zero =>
    have := DepthFirst.numFresh_enter_lt hv
    omega
  | succ levels ih =>
    have hlt := DepthFirst.numFresh_enter_lt hv
    have hvisited : ∀ u t, t.Valid g → t.marks u = .fresh →
        t.numFresh ≤ (s.search.enter v).numFresh → DepthFirst.Visited g u t
          (DepthFirst.visit g levels u t).1 (DepthFirst.visit g levels u t).2 :=
      fun u t ht hu hle => DepthFirst.visited_visit ht hu (by omega)
    have hnumber : (s.push v).low v = s.search.reached := VertexMap.get_set_self ..
    have hstart := DepthFirst.scanned_enter hs hv
    have hmark := (DepthFirst.Scanned.foldl hvisited hstart fun u hu => hu).advances.marks_self
    rw [← hnumber] at hstart
    obtain ⟨t, c, hreach, hend, hsearch, hlow, hframes, hwaiting⟩ :=
      exists_scan (fun u s hs hu hle => ih hs hu (by omega)) hvisited (s := s.push v) rfl rfl hstart
    rw [hnumber, List.drop_zero] at hsearch hlow
    have hself := hlow v (by rw [push, hstart.advances.marks_self]; simp)
    rw [VertexMap.get_set_self] at hself
    have hkept : ∀ u, s.search.marks u ≠ .fresh → t.low u = s.low u := by
      intro u hu
      have hvu : v ≠ u := fun heq => hu (heq ▸ hv)
      have hu' : (s.push v).search.marks u ≠ .fresh := by
        rwa [push, DepthFirst.marks_enter, if_neg hvu]
      rw [hlow u hu', VertexMap.get_set_of_ne _ hvu, push, VertexMap.get_set_of_ne _ hvu]
    obtain ⟨t', hstep, hresumes⟩ :=
      exists_leave hend (hsearch ▸ hmark) ⟨rfl, hkept, hframes, hwaiting⟩
    rw [hself, hsearch] at hresumes
    refine ⟨t', hreach.tail hstep, ?_⟩
    unfold DepthFirst.visit
    dsimp only
    split
    · rename_i heq
      rwa [push, if_pos heq] at hresumes
    · rename_i hne
      rwa [push, if_neg hne] at hresumes

/-! ### The whole search -/

/-- From one waiting vertex after the other the search comes to where the nested visits end. -/
theorem exists_halt {vs : List (Fin n)} (hs : s.search.Valid g) (hactive : s.search.active = [])
    (hframes : s.frames = []) (hwaiting : s.waiting = vs) :
    ∃ t, StateTransition.Reaches (step g) s t ∧ step g t = none ∧
      t.search = vs.foldl (DepthFirst.cover g) s.search := by
  induction vs generalizing s with
  | nil => exact ⟨s, .refl, step_done hframes hwaiting, rfl⟩
  | cons v vs ih =>
    obtain ⟨hvalid, hactive', -, -⟩ := DepthFirst.cover_spec (v := v) hs hactive
    have hstep := step_start (g := g) hframes hwaiting
    by_cases hv : s.search.marks v = .fresh
    · rw [if_pos hv] at hstep
      have hle : s.search.numFresh ≤ n := (Finset.card_le_univ _).trans (Fintype.card_fin n).le
      obtain ⟨t, hreach, hsearch, -, hframes', hwaiting'⟩ :=
        simulates_visit (s := { s with waiting := vs }) hs hv hle
      have hcover : t.search = DepthFirst.cover g s.search v := by
        rw [hsearch, DepthFirst.cover, hv]
      rw [← hcover] at hvalid hactive'
      obtain ⟨t', hreach', hend, hsearch'⟩ :=
        ih hvalid hactive' (hframes'.trans hframes) hwaiting'
      refine ⟨t', .head hstep (hreach.trans hreach'), hend, ?_⟩
      rw [hsearch', hcover, List.foldl_cons]
    · rw [if_neg hv] at hstep
      have hcover : DepthFirst.cover g s.search v = s.search := by
        unfold DepthFirst.cover
        split
        · contradiction
        · rfl
      obtain ⟨t', hreach', hend, hsearch'⟩ :=
        ih (s := { s with waiting := vs }) hs hactive hframes rfl
      refine ⟨t', .head hstep hreach', hend, ?_⟩
      rw [hsearch', List.foldl_cons, hcover]

/-- The search is over after finitely many turns, and has found the components. -/
theorem exists_components (g : Digraph n) : ∃ t, StateTransition.Reaches (step g) (start n) t ∧
    step g t = none ∧ t.components = g.components := by
  obtain ⟨t, hreach, hend, hsearch⟩ :=
    exists_halt (s := start n) (g := g) DepthFirst.valid_start rfl rfl rfl
  refine ⟨t, hreach, hend, ?_⟩
  rw [components, hsearch]
  rfl

end FrameSearch

end Octagon
