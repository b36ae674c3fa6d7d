import Octagon.Digraph.Queue
import Octagon.Proofs.FewestArcs
import Octagon.Proofs.Frames

/-!
The search with one queue finds the same paths as the search by layers, although it stops at its
target. What is left of a layer and what the layer has reached so far are the queue, in this order,
so turn by turn the queue follows the layers. Where it stops early its links are some of those that
the layers come to, and they lead from the target back to the source already. By induction on the
successors that are left to look at, on what is left of a layer, and on the layers.
-/

namespace Octagon

variable {n : Nat} {g : Digraph n} {source target u : Fin n}

/-- Every link is still there later. -/
def Kept (parents later : VertexMap n (Option (Fin n))) : Prop :=
  ∀ u v, parents v = some u → later v = some u

theorem Kept.trans {parents later last : VertexMap n (Option (Fin n))} (h : Kept parents later)
    (h' : Kept later last) : Kept parents last := fun u v huv => h' u v (h u v huv)

/-- What is traced along links is traced along more of them as well. -/
theorem Links.traceFrom_mono {links links' : Links n}
    (h : ∀ u v, links v = some u → links' v = some u) {first last : Fin n} :
    ∀ {steps : Nat} {v : Fin n} {path out : List (Fin n)},
      links.traceFrom first last steps v path = .ok out →
        links'.traceFrom first last steps v path = .ok out
  | 0, _, _, _, hout => by simp [traceFrom] at hout
  | steps + 1, v, path, out, hout => by
      cases hv : links v with
      | none => simp [traceFrom, hv] at hout
      | some u =>
        simp only [traceFrom, hv] at hout
        simp only [traceFrom, h u v hv]
        split
        · rename_i hu
          rwa [if_pos hu] at hout
        · rename_i hu
          rw [if_neg hu] at hout
          exact traceFrom_mono h hout

/-! ### Links are kept -/

namespace Layer

/-- Whatever is linked already keeps its link. -/
theorem kept_reach (source u v : Fin n) (layer : Layer n) :
    Kept layer.parents (layer.reach source u v).parents := by
  intro x y hxy
  by_cases hv : Known source layer.parents v
  · rwa [reach_known hv]
  · have hne : v ≠ y := by
      rintro rfl
      exact hv (.inr (by rw [hxy, Option.isSome_some]))
    rwa [reach_unknown hv, VertexMap.get_set_of_ne _ hne]

theorem kept_foldl_reach (source u : Fin n) : ∀ (vs : List (Fin n)) (layer : Layer n),
    Kept layer.parents (vs.foldl (reach source u) layer).parents
  | [], _ => fun _ _ h => h
  | v :: vs, layer => (kept_reach source u v layer).trans (kept_foldl_reach source u vs _)

theorem kept_foldl_expand (g : Digraph n) (source : Fin n) : ∀ (us : List (Fin n))
    (layer : Layer n), Kept layer.parents (us.foldl (expand g source) layer).parents
  | [], _ => fun _ _ h => h
  | u :: us, layer =>
      (kept_foldl_reach source u (g.next u) layer).trans (kept_foldl_expand g source us _)

end Layer

theorem Digraph.kept_grow (g : Digraph n) (source : Fin n) : ∀ (layers : Nat)
    (frontier : List (Fin n)) (parents : VertexMap n (Option (Fin n))),
      Kept parents (g.grow source layers frontier parents)
  | 0, _, _ => fun _ _ h => h
  | _ + 1, [], _ => fun _ _ h => h
  | layers + 1, u :: us, parents =>
      (Layer.kept_foldl_expand g source (u :: us) ⟨parents, []⟩).trans (g.kept_grow source layers _ _)

namespace QueueSearch

open Layer

variable {s t : QueueSearch n} {layer : Layer n} {left : List (Fin n)}

/-- The search is as far as a layer of which `left` is not expanded yet. -/
structure Follows (source : Fin n) (s : QueueSearch n) (layer : Layer n) (left : List (Fin n)) :
    Prop where
  parents_eq : s.parents = layer.parents
  discovered_iff : ∀ v, s.discovered v = true ↔ Known source layer.parents v
  queue_eq : s.queue = left ++ layer.reached
  not_found : s.found = false

/-- The search is over at its target, by links that are some of those in `later`. -/
structure Stopped (source target : Fin n) (s : QueueSearch n)
    (later : VertexMap n (Option (Fin n))) : Prop where
  found : s.found = true
  known : Known source s.parents target
  backed : Backed source s.parents
  kept : Kept s.parents later

theorem Stopped.mono {later last : VertexMap n (Option (Fin n))}
    (h : s.Stopped source target later) (hkept : Kept later last) :
    s.Stopped source target last := ⟨h.found, h.known, h.backed, h.kept.trans hkept⟩

/-! ### Single turns -/

/-- A vertex that is discovered is reached by the layer too. -/
theorem Follows.discover {v : Fin n} (h : s.Follows source layer left)
    (hv : ¬Known source layer.parents v) :
    { s.discover u v with queue := s.queue ++ [v] }.Follows source (layer.reach source u v)
      left := by
  rw [reach_unknown hv]
  refine ⟨?_, fun x => ?_, ?_, h.not_found⟩
  · simp only [QueueSearch.discover, h.parents_eq]
  · simp only [QueueSearch.discover, VertexMap.get_set, known_set]
    split
    · rename_i hx
      simp [hx]
    · rename_i hx
      rw [h.discovered_iff, or_iff_left (Ne.symm hx)]
  · simp only [h.queue_eq, List.append_assoc]

variable (target) in
/-- To look at successors is to reach them, up to the target. -/
theorem Follows.scan {before : VertexMap n (Option (Fin n))} : ∀ (vs : List (Fin n))
    {s : QueueSearch n} {layer : Layer n}, s.Follows source layer left →
      Extends source before layer → Known source layer.parents u →
      (s.scan target u vs).Follows source (vs.foldl (reach source u) layer) left ∨
        (s.scan target u vs).Stopped source target (vs.foldl (reach source u) layer).parents
  | [], _, _, h, _, _ => .inl h
  | v :: vs, s, layer, h, hext, hu => by
      rw [List.foldl_cons]
      by_cases hv : Known source layer.parents v
      · rw [QueueSearch.scan, if_pos ((h.discovered_iff v).2 hv), reach_known hv]
        exact h.scan vs hext hu
      · rw [QueueSearch.scan, if_neg fun hd => hv ((h.discovered_iff v).1 hd)]
        split
        · rename_i htarget
          subst htarget
          have hkept := kept_foldl_reach source u vs (layer.reach source u v)
          rw [reach_unknown hv] at hkept
          right
          rw [reach_unknown hv]
          have hlinks : { s.discover u v with found := true }.parents =
              layer.parents.set v (some u) := by simp only [QueueSearch.discover, h.parents_eq]
          refine ⟨rfl, ?_, ?_, ?_⟩
          · rw [hlinks, known_set]
            exact .inr rfl
          · rw [hlinks]
            exact hext.backed.set hu hv
          · rwa [hlinks]
        · exact (h.discover hv).scan vs (hext.reach hu v) ((known_reach v u).2 (.inl hu))

theorem step_turn (h : s.Follows source layer (u :: left)) :
    step g target s =
      some ({ s with queue := left ++ layer.reached }.scan target u (g.next u)) := by
  simp only [step, h.not_found, h.queue_eq, List.cons_append]

theorem step_empty {parents : VertexMap n (Option (Fin n))}
    (h : s.Follows source ⟨parents, []⟩ []) : step g target s = none := by
  simp only [step, h.not_found, h.queue_eq, List.append_nil]

theorem step_found (h : s.found = true) : step g target s = none := by
  simp only [step, h]

/-! ### The whole search -/

variable (target) in
/-- Turn by turn the search comes through what is left of a layer, or stops on the way. -/
theorem Follows.exists_layer {before : VertexMap n (Option (Fin n))} : ∀ {us : List (Fin n)}
    {s : QueueSearch n} {layer : Layer n}, s.Follows source layer us →
      Extends source before layer → (∀ u ∈ us, Known source layer.parents u) →
      ∃ t, StateTransition.Reaches (step g target) s t ∧
        (t.Follows source (us.foldl (expand g source) layer) [] ∨
          t.Stopped source target (us.foldl (expand g source) layer).parents)
  | [], s, _, h, _, _ => ⟨s, .refl, .inl h⟩
  | u :: us, s, layer, h, hext, hus => by
      have hu : Known source layer.parents u := hus u (List.mem_cons_self ..)
      obtain ⟨hstep, hknown⟩ := hext.foldl_reach (g.next u) hu
      have hturn : { s with queue := us ++ layer.reached }.Follows source layer us :=
        ⟨h.parents_eq, h.discovered_iff, rfl, h.not_found⟩
      rw [List.foldl_cons]
      rcases hturn.scan target (g.next u) hext hu with hscan | hscan
      · obtain ⟨t, hreach, ht⟩ := hscan.exists_layer hstep fun x hx =>
          (hknown x).2 (.inl (hus x (List.mem_cons_of_mem u hx)))
        exact ⟨t, .head (step_turn h) hreach, ht⟩
      · exact ⟨_, .single (step_turn h), .inr (hscan.mono (kept_foldl_expand g source us _))⟩

variable (target) in
/-- Layer by layer the search comes to its end. -/
theorem Follows.exists_halt : ∀ {layers : Nat} {frontier : List (Fin n)}
    {parents : VertexMap n (Option (Fin n))} {s : QueueSearch n},
      s.Follows source ⟨parents, []⟩ frontier → g.Frontier source frontier parents →
      (frontier ≠ [] → Digraph.numUnknown source parents < layers) →
      ∃ t, StateTransition.Reaches (step g target) s t ∧ step g target t = none ∧
        (t.parents = g.grow source layers frontier parents ∨
          t.Stopped source target (g.grow source layers frontier parents))
  | 0, [], _, s, h, _, _ => ⟨s, .refl, step_empty h, .inl h.parents_eq⟩
  | 0, _ :: _, _, _, _, _, hfuel => absurd (hfuel (by simp)) (Nat.not_lt_zero _)
  | _ + 1, [], _, s, h, _, _ => ⟨s, .refl, step_empty h, .inl h.parents_eq⟩
  | layers + 1, u :: us, parents, s, h, hf, hfuel => by
      obtain ⟨hext, hnext⟩ := hf.next
      have hstart : Extends source parents ⟨parents, []⟩ := ⟨by simp, by simp, hf.backed⟩
      obtain ⟨t, hreach, ht⟩ := h.exists_layer (g := g) target hstart hf.known
      rcases ht with ht | ht
      · have hlayer : t.Follows source
            ⟨((u :: us).foldl (expand g source) ⟨parents, []⟩).parents, []⟩
            ((u :: us).foldl (expand g source) ⟨parents, []⟩).reached :=
          ⟨ht.parents_eq, ht.discovered_iff, by simpa using ht.queue_eq, ht.not_found⟩
        obtain ⟨t', hreach', hend, ht'⟩ := hlayer.exists_halt hnext fun hne =>
          (Digraph.numUnknown_lt hext hne).trans_le (Nat.le_of_lt_succ (hfuel (by simp)))
        exact ⟨t', hreach.trans hreach', hend, ht'⟩
      · exact ⟨t, hreach, step_found ht.found, .inr (ht.mono (g.kept_grow source layers _ _))⟩

/-- At first the source is all that is left. -/
theorem follows_start (source : Fin n) :
    (start source).Follows source ⟨.const n none, []⟩ [source] := by
  refine ⟨rfl, fun v => ?_, rfl, rfl⟩
  simp only [start, Known, VertexMap.get_set, VertexMap.get_const, Option.isSome_none]
  split
  · rename_i hv
    simp [hv]
  · rename_i hv
    simp [Ne.symm hv]

/-- The path that a stopped search shows is traced along all later links as well. -/
theorem Stopped.exists_path {later : VertexMap n (Option (Fin n))}
    (h : t.Stopped source target later) (hne : source ≠ target) :
    ∃ path, (Links.ofMap t.parents).trace source target = .ok path ∧
      (Links.ofMap later).trace source target = .ok path := by
  obtain ⟨k, hk⟩ := h.backed target h.known
  cases k with
  | zero => exact absurd (Option.some.inj hk).symm hne
  | succ k =>
    obtain ⟨path, hpath⟩ := Links.exists_trace_eq_ok hk
    exact ⟨path, hpath, Links.traceFrom_mono h.kept hpath⟩

/-- The search is over after finitely many turns, and shows the path that the layers do. -/
theorem exists_path_eq (g : Digraph n) (source target : Fin n) :
    ∃ t, StateTransition.Reaches (step g target) (start source) t ∧ step g target t = none ∧
      t.path source target = g.path source target := by
  obtain ⟨t, hreach, hend, ht⟩ := (follows_start source).exists_halt (g := g) target
    (g.frontier_start source) fun _ => Digraph.numUnknown_start_lt source
  refine ⟨t, hreach, hend, ?_⟩
  unfold path Digraph.path
  split
  · rfl
  · rename_i hne
    rcases ht with ht | ht
    · rw [ht]
      rfl
    · obtain ⟨path, hpath, hlater⟩ := ht.exists_path hne
      exact hpath.trans hlater.symm

end QueueSearch

/-! ### Shortest paths -/

namespace Digraph

/-- Successors lead along `vs` from `source` to `target`. -/
structure Way (g : Digraph n) (source target : Fin n) (vs : List (Fin n)) : Prop where
  head : vs.head? = some source
  last : vs.getLast? = some target
  chain : vs.IsChain fun u v => v ∈ g.next u

/-- A way has an arc fewer than it has vertices. -/
theorem Way.leads {vs : List (Fin n)} (h : g.Way source target vs) :
    ∃ k, vs.length = k + 1 ∧ g.Leads k source target := by
  obtain ⟨hhead, hlast, hchain⟩ := h
  obtain ⟨vs, rfl⟩ := List.head?_eq_some_iff.1 hhead
  clear hhead
  refine ⟨vs.length, rfl, ?_⟩
  induction vs generalizing source with
  | nil => exact Option.some.inj hlast
  | cons v vs ih =>
    obtain ⟨hv, hrest⟩ := List.isChain_cons_cons.1 hchain
    rw [List.getLast?_cons_cons] at hlast
    exact (ih hlast hrest).head hv

/-- From any vertex to any other that it reaches the search with a queue is over after finitely many
turns, and shows a path: a way along arcs that repeats no vertex, and no way has fewer vertices. It
is the path that the search by layers finds. -/
theorem exists_shortest_path (hne : source ≠ target) (h : g.Reaches source target) :
    ∃ t path, StateTransition.Reaches (QueueSearch.step g target) (.start source) t ∧
      QueueSearch.step g target t = none ∧ t.path source target = .ok path ∧
      g.path source target = .ok path ∧ g.Way source target path ∧ path.Nodup ∧
      ∀ vs, g.Way source target vs → path.length ≤ vs.length := by
  obtain ⟨path, hpath⟩ := h.exists_path hne
  obtain ⟨t, hreach, hend, heq⟩ := QueueSearch.exists_path_eq g source target
  obtain ⟨-, hchain, hnodup, hhead, hlast⟩ := path_eq_ok hpath
  refine ⟨t, path, hreach, hend, heq.trans hpath, hpath, ⟨hhead, hlast, hchain⟩, hnodup, ?_⟩
  intro vs hvs
  obtain ⟨k, hlen, hlead⟩ := hvs.leads
  rw [hlen]
  exact length_le_of_path hpath hlead

/-- Two ways from 0 to 4, a loop and two arcs from 0 to 2. -/
def detour : Digraph 5 :=
  ⟨.ofFn fun v => match v with
    | 0 => [0, 1, 2, 2]
    | 1 => [3]
    | 2 => [4, 3]
    | 3 => [4]
    | 4 => [0]⟩

/-- The way by 2 is found, although 3 is discovered before 4. -/
theorem exists_shortest_path_detour :
    (0 : Fin 5) ≠ 4 ∧ detour.Reaches 0 4 ∧
    ∃ t, StateTransition.Reaches (QueueSearch.step detour 4) (.start 0) t ∧
      QueueSearch.step detour 4 t = none ∧ t.path 0 4 = .ok [0, 2, 4] ∧
      detour.Way 0 4 [0, 2, 4] ∧ ∀ vs, detour.Way 0 4 vs → 3 ≤ vs.length := by
  have hne : (0 : Fin 5) ≠ 4 := by decide
  have hreach : detour.Reaches 0 4 :=
    (Relation.ReflTransGen.single (show 2 ∈ detour.next 0 by decide)).tail (by decide)
  have hfound : detour.path 0 4 = .ok [0, 2, 4] := by decide +kernel
  obtain ⟨t, path, ht, hend, hpath, hsame, hway, -, hleast⟩ := exists_shortest_path hne hreach
  obtain rfl : path = [0, 2, 4] := Except.ok.inj (hsame.symm.trans hfound)
  exact ⟨hne, hreach, t, ht, hend, hpath, hway, hleast⟩

end Digraph

end Octagon
