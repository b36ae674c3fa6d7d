import Mathlib
import Octagon.Proofs.Graph.History
import Octagon.Proofs.Graph.Network
import Octagon.Proofs.ShortestPath
import Octagon.ShortestPath.Moment

/-!
What holds at every moment of a search for shortest paths. The search one arc at a time comes to the
same end as the search by rounds, so its moments are the states in between. At each of them links
are arcs; a cycle of links has a negative weight and avoids the root; and a path of links from the
root is no longer than the distance known of its end, and shorter than every weight where the end is
what a path has just underflowed into. The arc to be relaxed next prolongs a path of length at most
0, so the length it comes to is the exact sum, or else the sum is below every weight: no path is
prolonged from a vertex that was not reached, and none stays at the largest weight.
-/

namespace Octagon

variable {w : Width} {ρ : Type} {n : Nat}

namespace Moment

/-! ### The search arc by arc -/

section search

variable {overflow : Overflow} {strategy : Strategy} {arcs waiting : List (Arc w ρ n)}
  {a : Arc w ρ n} {rounds : Nat} {paths after : Paths w n} {s : Moment w ρ n}

@[simp] theorem note_paths (v : Fin n) : (s.note overflow v).paths = s.paths := by
  unfold note
  split <;> [rfl; split <;> rfl]

@[simp] theorem note_waiting (v : Fin n) : (s.note overflow v).waiting = s.waiting := by
  unfold note
  split <;> [rfl; split <;> rfl]

@[simp] theorem note_underflow (v : Fin n) : (s.note overflow v).underflow = s.underflow := by
  unfold note
  split <;> [rfl; split <;> rfl]

/-- In the moments of a round improvements are noted by `note`. -/
structure Notes (overflow : Overflow) (strategy : Strategy) (arcs : List (Arc w ρ n)) {α : Type}
    (note : α → Fin n → Option α)
    (moment : α → Paths w n → List (Arc w ρ n) → Moment w ρ n) : Prop where
  unchanged : ∀ noted paths after a waiting, paths.relax a = (.unchanged, after) →
    (moment noted paths (a :: waiting)).step overflow strategy arcs =
      some (moment noted after waiting)
  improved : ∀ noted more paths after a waiting, paths.relax a = (.improved, after) →
    note noted a.target = some more →
      (moment noted paths (a :: waiting)).step overflow strategy arcs =
        some (moment more after waiting)
  unnoted : ∀ noted paths after a waiting, paths.relax a = (.improved, after) →
    note noted a.target = none →
      ∃ t, (moment noted paths (a :: waiting)).step overflow strategy arcs = some t ∧
        t.step overflow strategy arcs = none ∧ t.ending = .overflowed
  underflowed : ∀ noted paths after a waiting, paths.relax a = (.underflow, after) →
    ∃ t, (moment noted paths (a :: waiting)).step overflow strategy arcs = some t ∧
      t.step overflow strategy arcs = none ∧ t.ending = .underflowed after a.target

/-- A round that is not the last one counts. -/
theorem notes_count (overflow : Overflow) (strategy : Strategy) (arcs : List (Arc w ρ n))
    (rounds : Nat) : Notes overflow strategy arcs (fun count _ => overflow.next? count)
      fun count paths waiting => { paths, count, waiting, rounds := rounds + 1 } where
  unchanged noted paths after a waiting h := by simp only [step, relax, h]
  improved noted more paths after a waiting h hnote := by
    simp only [step, relax, note, h, hnote, Nat.succ_ne_zero, if_false]
  unnoted noted paths after a waiting h hnote := by
    simp only [step, relax, note, h, hnote, Nat.succ_ne_zero, if_false, Option.some.injEq,
      exists_eq_left', ending, and_self]
  underflowed noted paths after a waiting h := by
    simp only [step, relax, h, Option.some.injEq, exists_eq_left', ending, and_self]

/-- The last round remembers the target improved last. -/
theorem notes_last (overflow : Overflow) (strategy : Strategy) (arcs : List (Arc w ρ n)) :
    Notes overflow strategy arcs (fun _ target => some (some target))
      fun last paths waiting => { paths, last, waiting, rounds := 0 } where
  unchanged noted paths after a waiting h := by simp only [step, relax, h]
  improved noted more paths after a waiting h hnote := by
    simp only [step, relax, note, h, if_true, Option.some.inj hnote]
  unnoted noted paths after a waiting h hnote := nomatch hnote
  underflowed noted paths after a waiting h := by
    simp only [step, relax, h, Option.some.injEq, exists_eq_left', ending, and_self]

namespace Notes

variable {α : Type} {note : α → Fin n → Option α}
  {moment : α → Paths w n → List (Arc w ρ n) → Moment w ρ n}
  (h : Notes overflow strategy arcs note moment)

include h

/-- A round that is completed is completed arc by arc. -/
theorem reaches_of_completed {out : α} : ∀ {waiting : List (Arc w ρ n)} {paths : Paths w n}
    {noted : α}, paths.sweepFrom note noted waiting = .completed after out →
      StateTransition.Reaches (step overflow strategy arcs) (moment noted paths waiting)
        (moment out after [])
  | [], _, _, hsweep => by
      cases hsweep
      exact .refl
  | a :: waiting, paths, noted, hsweep => by
      rw [Paths.sweepFrom] at hsweep
      split at hsweep
      · rename_i next hrelax
        exact .head (h.unchanged _ _ _ _ _ hrelax) (reaches_of_completed hsweep)
      · rename_i next hrelax
        split at hsweep
        · rename_i more hnote
          exact .head (h.improved _ _ _ _ _ _ hrelax hnote) (reaches_of_completed hsweep)
        · cases hsweep
      · cases hsweep

/-- A round that is not completed stops at one of its arcs. -/
theorem exists_halt {ending : Ending w n} : ∀ {waiting : List (Arc w ρ n)} {paths : Paths w n}
    (noted : α), (∀ after target, paths.sweepFrom note noted waiting = .underflowed after target →
        ending = .underflowed after target) →
      (paths.sweepFrom note noted waiting = .overflowed → ending = .overflowed) →
      (∀ after out, paths.sweepFrom note noted waiting ≠ .completed after out) →
      ∃ t, StateTransition.Reaches (step overflow strategy arcs) (moment noted paths waiting) t ∧
        t.step overflow strategy arcs = none ∧ t.ending = ending
  | [], _, _, _, _, hdone => absurd rfl (hdone _ _)
  | a :: waiting, paths, noted, hunder, hover, hdone => by
      rw [Paths.sweepFrom] at hunder hover hdone
      cases hrelax : paths.relax a with
      | mk effect next =>
        rw [hrelax] at hunder hover hdone
        cases effect with
        | unchanged =>
          obtain ⟨t, hreach, ht⟩ := exists_halt _ hunder hover hdone
          exact ⟨t, .head (h.unchanged _ _ _ _ _ hrelax) hreach, ht⟩
        | improved =>
          cases hnote : note noted a.target with
          | none =>
            simp only [hnote, forall_const] at hover
            obtain ⟨t, hstep, hhalt, hending⟩ := h.unnoted _ _ _ _ waiting hrelax hnote
            exact ⟨t, .single hstep, hhalt, hending.trans hover.symm⟩
          | some more =>
            simp only [hnote] at hunder hover hdone
            obtain ⟨t, hreach, ht⟩ := exists_halt _ hunder hover hdone
            exact ⟨t, .head (h.improved _ _ _ _ _ _ hrelax hnote) hreach, ht⟩
        | underflow =>
          obtain ⟨t, hstep, hhalt, hending⟩ := h.underflowed noted _ _ _ waiting hrelax
          exact ⟨t, .single hstep, hhalt, hending.trans (hunder _ _ rfl).symm⟩

end Notes

/-- Arc by arc the search comes to the end that the search by rounds comes to. -/
theorem exists_halt (overflow : Overflow) (strategy : Strategy) (arcs : List (Arc w ρ n)) :
    ∀ (rounds : Nat) (paths : Paths w n), ∃ t,
      StateTransition.Reaches (step overflow strategy arcs) { paths, waiting := arcs, rounds } t ∧
        t.step overflow strategy arcs = none ∧
        t.ending = (paths.explore overflow strategy arcs rounds).ending
  | 0, paths => by
      have hnotes := notes_last overflow strategy arcs
      rw [Paths.explore, Paths.detect]
      cases h : paths.lookAgain arcs with
      | underflowed after target =>
        refine hnotes.exists_halt none (fun _ _ heq => ?_) (fun heq => ?_) fun _ _ heq => ?_
        all_goals cases h.symm.trans heq
        rfl
      | overflowed =>
        refine hnotes.exists_halt none (fun _ _ heq => ?_) (fun heq => ?_) fun _ _ heq => ?_
        all_goals cases h.symm.trans heq
        rfl
      | completed after last =>
        refine ⟨_, hnotes.reaches_of_completed h, rfl, ?_⟩
        cases last <;> rfl
  | rounds + 1, paths => by
      have hnotes := notes_count overflow strategy arcs rounds
      rw [Paths.explore]
      cases h : paths.round overflow arcs with
      | underflowed after target =>
        refine hnotes.exists_halt 0 (fun _ _ heq => ?_) (fun heq => ?_) fun _ _ heq => ?_
        all_goals cases h.symm.trans heq
        rfl
      | overflowed =>
        refine hnotes.exists_halt 0 (fun _ _ heq => ?_) (fun heq => ?_) fun _ _ heq => ?_
        all_goals cases h.symm.trans heq
        rfl
      | completed after count =>
        dsimp only
        split
        · rename_i hexit
          exact ⟨_, hnotes.reaches_of_completed h, if_pos hexit, rfl⟩
        · rename_i hnext
          obtain ⟨t, hreach, ht⟩ := exists_halt overflow strategy arcs rounds after
          refine ⟨t, (hnotes.reaches_of_completed h).trans (.head ?_ hreach), ht⟩
          exact if_neg hnext

end search

end Moment

/-- The moments of a search. -/
def Network.Passes (net : Network w ρ n) (overflow : Overflow) (strategy : Strategy)
    (s : Moment w ρ (n + 1)) : Prop :=
  StateTransition.Reaches (Moment.step overflow strategy net.arcs) net.firstMoment s

/-- The last moment of a search shows how it ends. -/
theorem Network.exists_lastMoment (net : Network w ρ n) (overflow : Overflow)
    (strategy : Strategy) :
    ∃ s, net.Passes overflow strategy s ∧ s.step overflow strategy net.arcs = none ∧
      s.ending = (net.shortestPaths overflow strategy).ending :=
  Moment.exists_halt overflow strategy net.arcs n (.initial w n)

/-! ### What a step keeps -/

/-- The paths are those of a search between two arcs, or those of one that underflowed. -/
def Moment.Follows (net : Network w ρ n) (s : Moment w ρ (n + 1)) : Prop :=
  match s.underflow with
  | none => ∃ seen, net.arcs = seen ++ s.waiting ∧ net.Visits seen s.paths
  | some target => s.paths.Underflowed net target

variable {net : Network w ρ n}

theorem Moment.Follows.step {overflow : Overflow} {strategy : Strategy} {s t : Moment w ρ (n + 1)}
    (hnet : net.Rooted) (h : s.Follows net) (ht : s.step overflow strategy net.arcs = some t) :
    t.Follows net := by
  obtain ⟨paths, count, last, waiting, rounds, _ | target, _ | _⟩ := s
  · obtain ⟨seen, harcs, hv⟩ := h
    cases waiting with
    | cons a waiting =>
      have hsound := Paths.Sound.of_visits hnet hv
      have hseen : net.arcs = (seen ++ [a]) ++ waiting := by simpa using harcs
      simp only [Moment.step, Moment.relax] at ht
      rcases Paths.relax_cases paths a (hsound.source_le_zero hnet harcs) with
        ⟨heq, _⟩ | ⟨length, _, _, heq⟩ | ⟨hlt, heq⟩
      · simp only [heq] at ht
        cases ht
        exact ⟨_, hseen, hv.relax harcs heq (by simp)⟩
      · simp only [heq] at ht
        cases ht
        rw [Moment.Follows, Moment.note_underflow, Moment.note_waiting, Moment.note_paths]
        exact ⟨_, hseen, hv.relax harcs heq (by simp)⟩
      · simp only [heq] at ht
        cases ht
        exact ⟨seen, paths, a, waiting, hv, harcs, rfl, rfl, hlt⟩
    | nil =>
      -- the round is over, and if there is another one it begins with the same paths
      obtain rfl : net.arcs = seen := by simpa using harcs
      cases rounds with
      | zero => cases ht
      | succ rounds =>
        simp only [Moment.step] at ht
        split at ht
        · cases ht
        · cases ht
          exact ⟨[], rfl, hv.again⟩
  · cases ht
  · cases ht
  · cases ht

theorem Network.Passes.follows {overflow : Overflow} {strategy : Strategy}
    {s : Moment w ρ (n + 1)} (hnet : net.Rooted) (h : net.Passes overflow strategy s) :
    s.Follows net := by
  induction h with
  | refl => exact ⟨[], rfl, .start⟩
  | tail _ hstep ih => exact ih.step hnet hstep

/-! ### Links -/

namespace Paths

/-- What links tell at any moment: a cycle of them is negative and avoids the root, and a path of
them from the root is no longer than the distance known of its end. -/
structure Traceable (net : Network w ρ n) (paths : Paths w (n + 1)) : Prop where
  links : ∀ u v, paths.predecessor v = some u → ∃ a ∈ net.arcs, a.source = u ∧ a.target = v
  cycle : ∀ v l, Walk (paths.linkArcs net.arcs) v v l → l ≠ [] →
    exactWeight l < 0 ∧ Network.root n ∉ visited v l
  path : ∀ v l, Walk (paths.linkArcs net.arcs) (Network.root n) v l → exactWeight l ≤ paths.dist v

variable {paths after : Paths w (n + 1)} {target : Fin (n + 1)} {seen : List (Arc w ρ (n + 1))}

theorem LinksSound.traceable (hnet : net.Rooted) (h : paths.LinksSound net)
    (hpath : ∀ v l, Walk (paths.linkArcs net.arcs) (Network.root n) v l →
      exactWeight l ≤ paths.dist v) : paths.Traceable net where
  links := h.exists_arc
  cycle v l hl hne :=
    ⟨h.cycle_neg v l hl hne, hnet.root_notMem_visited (walk_of_linkArcs hl) hne⟩
  path := hpath

theorem Sound.traceable (hnet : net.Rooted) (h : paths.Sound net seen) : paths.Traceable net := by
  refine h.linksSound.traceable hnet fun v l hl => ?_
  have hle := hl.add_le h.link_le
  rwa [h.dist_root, zero_add] at hle

/-- The link of an underflow makes paths along it shorter than any distance. -/
theorem Underflowed.traceable (hnet : net.Rooted) (h : after.Underflowed net target) :
    after.Traceable net ∧ ∀ l, Walk (after.linkArcs net.arcs) (Network.root n) target l →
      exactWeight l < w.min := by
  have hlinks := h.linksSound hnet
  obtain ⟨seen, paths, a, rest, hv, harcs, rfl, rfl, hlt⟩ := h
  have hsound := Sound.of_visits hnet hv
  have ha : a ∈ net.arcs := by simp [harcs]
  have hmin : w.min ≤ paths.dist a.target := (paths.distance a.target).min_le
  refine ⟨hlinks.traceable hnet fun v l hl => ?_, fun l hl =>
    hsound.exactWeight_lt_min hnet ha hlt hl⟩
  have hroot := hsound.dist_root
  rw [dist_link]
  rcases walk_link hnet hsound ha (by omega) hl with hold | hle
  · have := hold.add_le hsound.link_le
    omega
  · omega

end Paths

theorem Network.Passes.traceable {overflow : Overflow} {strategy : Strategy}
    {s : Moment w ρ (n + 1)} (hnet : net.Rooted) (h : net.Passes overflow strategy s) :
    s.paths.Traceable net ∧ ∀ target, s.underflow = some target →
      ∀ l, Walk (s.paths.linkArcs net.arcs) (Network.root n) target l → exactWeight l < w.min := by
  have hfollows := h.follows hnet
  unfold Moment.Follows at hfollows
  cases hunder : s.underflow with
  | none =>
    rw [hunder] at hfollows
    obtain ⟨seen, -, hv⟩ := hfollows
    exact ⟨(Paths.Sound.of_visits hnet hv).traceable hnet, nofun⟩
  | some target =>
    rw [hunder] at hfollows
    obtain ⟨htrace, hlight⟩ := Paths.Underflowed.traceable hnet hfollows
    refine ⟨htrace, ?_⟩
    rintro _ ⟨⟩
    exact hlight

/-- At every moment of a search in a graph that calls build, links are edges, a cycle of links is
negative and avoids the root, and a path of links from the root is no longer than the distance known
of its end; after an underflow it is shorter than every weight where it ends in the target. The last
moment shows the end of the search. -/
theorem Graph.traceable_ofCalls (calls : List (Call w ρ)) (overflow : Overflow)
    (strategy : Strategy) :
    ∃ net, (ofCalls calls).network = .ok net ∧
      net.arcs.map Arc.edge = (ofCalls calls).edges.toList ∧
      (∃ s, net.Passes overflow strategy s ∧ s.step overflow strategy net.arcs = none ∧
        s.ending = (net.shortestPaths overflow strategy).ending) ∧
      ∀ s, net.Passes overflow strategy s → s.paths.Traceable net ∧
        ∀ target, s.underflow = some target →
          ∀ l, Walk (s.paths.linkArcs net.arcs) (Network.root _) target l →
            exactWeight l < w.min := by
  obtain ⟨net, hnet⟩ := (valid_ofCalls calls).exists_isNetwork
  exact ⟨net, hnet.network_eq, hnet.map_edge, net.exists_lastMoment overflow strategy,
    fun s hs => hs.traceable hnet.rooted⟩

/-! ### Sums -/

/-- The length of a path that goes on is the exact sum, or else this is below every weight. -/
structure Weight.CombinesExactly (a b : Weight w) : Prop where
  ne_max : a ≠ max
  eq_add : a.combine b = a.add? b
  eq_some_iff : ∀ c, a.combine b = some c ↔ c.val = a.val + b.val
  eq_none_iff : a.combine b = none ↔ a.val + b.val < w.min

theorem Weight.combinesExactly {a : Weight w} (ha : a.val ≤ 0) (b : Weight w) :
    a.CombinesExactly b where
  ne_max := by
    rintro rfl
    exact absurd ha (not_le.2 w.max_pos)
  eq_add := Option.ext fun _ => (combine_eq_some_iff ha).trans add?_eq_some_iff.symm
  eq_some_iff _ := combine_eq_some_iff ha
  eq_none_iff := combine_eq_none_iff ha

/-- The arc that a search relaxes next comes from a known distance. -/
theorem Network.Passes.source_le_zero {overflow : Overflow} {strategy : Strategy}
    {s : Moment w ρ (n + 1)} (hnet : net.Rooted) (h : net.Passes overflow strategy s)
    (hunder : s.underflow = none) {a : Arc w ρ (n + 1)} {waiting : List (Arc w ρ (n + 1))}
    (hwaiting : s.waiting = a :: waiting) :
    (s.paths.distance a.source).val ≤ 0 := by
  have hfollows := h.follows hnet
  rw [Moment.Follows, hunder] at hfollows
  obtain ⟨seen, harcs, hv⟩ := hfollows
  rw [hwaiting] at harcs
  exact (Paths.Sound.of_visits hnet hv).source_le_zero hnet harcs

/-- Whenever a search relaxes an arc, the distance of its source is at most 0, so the sum is exact
or below every weight. The distances that a search finds are at most 0 as well. -/
theorem Graph.combinesExactly_ofCalls (calls : List (Call w ρ)) (overflow : Overflow)
    (strategy : Strategy) :
    ∃ net, (ofCalls calls).network = .ok net ∧
      (∃ s, net.Passes overflow strategy s ∧ s.step overflow strategy net.arcs = none ∧
        s.ending = (net.shortestPaths overflow strategy).ending) ∧
      (∀ s a waiting, net.Passes overflow strategy s → s.underflow = none →
        s.waiting = a :: waiting → (s.paths.distance a.source).val ≤ 0 ∧
          (s.paths.distance a.source).CombinesExactly a.weight) ∧
      ∀ paths, (net.shortestPaths overflow strategy).ending.outcome = .distances paths →
        ∀ v, w.min ≤ (paths.distance v).val ∧ (paths.distance v).val ≤ 0 := by
  obtain ⟨net, hnet⟩ := (valid_ofCalls calls).exists_isNetwork
  refine ⟨net, hnet.network_eq, net.exists_lastMoment overflow strategy, ?_, ?_⟩
  · intro s a waiting hs hunder hwaiting
    have hle := hs.source_le_zero hnet.rooted hunder hwaiting
    exact ⟨hle, Weight.combinesExactly hle a.weight⟩
  · intro paths hout v
    have hexplains := net.outcome_explains hnet.rooted overflow strategy
    rw [hout] at hexplains
    exact ⟨(paths.distance v).min_le, hexplains.1.dist_le_zero hnet.rooted v⟩

end Octagon
