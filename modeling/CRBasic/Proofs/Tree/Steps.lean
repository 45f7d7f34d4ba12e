import CRBasic.Proofs.Tree.Draft
import CRBasic.Tree.Builder

/-!
# The steps of a draft

When the pointers in the events of a draft are followed, the node and all that was put around it
start together, outermost first, and the starts that were pointed to are passed over
(`ofEvents_events`).
-/

namespace CRBasic

namespace Draft

/-! ### Steps -/

/-- The kinds of a draft and of the nodes that it was put around in turn, outermost first. -/
def spine : Draft → List NodeKind
  | node kind _ => [kind]
  | around kind first _ => kind :: first.spine

mutual

/-- The steps of a draft after its nodes have started. -/
def inside : Draft → List BuildStep
  | node _ parts => stepsOfAll parts ++ [.closeNode]
  | around _ first parts => first.inside ++ (stepsOfAll parts ++ [.closeNode])

/-- The steps of some parts. -/
def stepsOfAll : List (Piece Draft) → List BuildStep
  | [] => []
  | .word w :: ps => .token w.kind :: stepsOfAll ps
  | .node d :: ps => .openNodes d.spine :: (d.inside ++ stepsOfAll ps)

end

/-! ### The first event -/

/-- The kind of the innermost node of the spine. -/
def core : Draft → NodeKind
  | node kind _ => kind
  | around _ first _ => first.core

/-- The pointer of the first event. -/
def firstLink (linked : Bool) : Draft → Option Nat
  | node _ parts => link linked (sizeOfAll parts + 2)
  | around _ first _ => first.firstLink true

/-- The events after the first one. -/
def laterEvents (linked : Bool) : Draft → List Event
  | node _ parts => eventsOfAll parts ++ [.finish]
  | around kind first parts =>
    first.laterEvents true ++
      .start kind (link linked (sizeOfAll parts + 2)) :: (eventsOfAll parts ++ [.finish])

/-- The starts that the first event leads to: how far each lies ahead, and its kind. -/
def chain : Draft → List (Nat × NodeKind)
  | node _ _ => []
  | around kind first _ => first.chain ++ [(first.size, kind)]

theorem events_eq_cons (linked : Bool) (d : Draft) :
    d.events linked = .start d.core (d.firstLink linked) :: d.laterEvents linked := by
  cases d with
  | node kind parts => simp [events, core, firstLink, laterEvents]
  | around kind first parts =>
    simp [events, core, firstLink, laterEvents, events_eq_cons true first]

theorem spine_eq_reverse (d : Draft) : d.spine = (d.core :: d.chain.map (·.2)).reverse := by
  cases d with
  | node kind parts => rfl
  | around kind first parts => simp [spine, core, chain, spine_eq_reverse first]

theorem two_le_size (d : Draft) : 2 ≤ d.size := by
  cases d <;> simp only [size] <;> omega

/-! ### Following pointers -/

/-- Pointers followed from a place after some other events lead further by their number. -/
theorem parents_append (pre post : List Event) (n : Nat) :
    Event.parents (n + 1 + pre.length) (pre ++ post) =
      (Event.parents (n + 1) post).map fun p => (p.1 + pre.length, p.2) := by
  induction pre with
  | nil => simp
  | cons e pre ih =>
    have hstep : Event.parents (n + 1 + (e :: pre).length) (e :: pre ++ post) =
        (Event.parents (n + 1 + pre.length) (pre ++ post)).map fun p => (p.1 + 1, p.2) := by
      rw [List.length_cons, show n + 1 + (pre.length + 1) = n + pre.length + 2 by omega,
        List.cons_append, Event.parents, show n + pre.length + 1 = n + 1 + pre.length by omega]
    rw [hstep, ih, List.map_map]
    simp [Function.comp_def, Nat.add_assoc]

theorem parents_link (parts : List (Piece Draft)) (linked : Bool) (post : List Event) :
    Event.parents ((link linked (sizeOfAll parts + 2)).getD 0)
        (eventsOfAll parts ++ .finish :: post) =
      if linked then (Event.parents 1 post).map fun p => (p.1 + (sizeOfAll parts + 1), p.2)
      else [] := by
  cases linked with
  | false => simp [link, Event.parents]
  | true =>
    have h := parents_append (eventsOfAll parts ++ [.finish]) post 0
    simp only [List.length_append, length_eventsOfAll, List.length_singleton,
      List.append_assoc, List.singleton_append] at h
    rw [link, if_pos rfl, if_pos rfl, Option.getD_some, ← h]
    congr 1
    omega

/-- What the pointer at the start of the events of a draft leads to: to the starts of the nodes
around, and on to what starts right after the draft, if that is linked. -/
theorem parents_firstLink (linked : Bool) (post : List Event) (d : Draft) :
    Event.parents ((d.firstLink linked).getD 0) (d.laterEvents linked ++ post) =
      d.chain ++ if linked then (Event.parents 1 post).map fun p => (p.1 + (d.size - 1), p.2)
        else [] := by
  cases d with
  | node kind parts =>
    have h := parents_link parts linked post
    simp only [firstLink, laterEvents, chain, size, List.append_assoc, List.singleton_append,
      List.nil_append]
    exact h
  | around kind first parts =>
    have hfirst := parents_firstLink true (.start kind (link linked (sizeOfAll parts + 2)) ::
      (eventsOfAll parts ++ .finish :: post)) first
    have htwo := first.two_le_size
    simp only [firstLink, laterEvents, chain, List.append_assoc, List.cons_append,
      List.nil_append]
    rw [hfirst, if_pos rfl, Event.parents, parents_link]
    have hhead : 1 + (first.size - 1) = first.size := by omega
    cases linked with
    | false => simp [hhead]
    | true =>
      have hshift (n : Nat) : n + (sizeOfAll parts + 1) + 1 + (first.size - 1) =
          n + (size (around kind first parts) - 1) := by
        simp only [size]
        omega
      simp [hhead, hshift, Function.comp_def]

/-! ### Passing over starts -/

theorem filter_claimed {claimed : List Nat} (h : ∀ c ∈ claimed, 0 < c) :
    claimed.filter (· ≠ 0) = claimed := by
  rw [List.filter_eq_self]
  intro c hc
  have := h c hc
  simp
  omega

/-- If the next event is no claimed start, the claims just come nearer. -/
theorem ofEvents_unclaimed {claimed : List Nat} (h : ∀ c ∈ claimed, 0 < c) (e : Event)
    (es : List Event) :
    BuildStep.ofEvents claimed (e :: es) =
      match e with
      | .start kind parent? =>
        let around := Event.parents (parent?.getD 0) es
        .openNodes ((kind :: around.map (·.2)).reverse) ::
          BuildStep.ofEvents (around.map (·.1 - 1) ++ claimed.map (· - 1)) es
      | .token kind => .token kind :: BuildStep.ofEvents (claimed.map (· - 1)) es
      | .finish => .closeNode :: BuildStep.ofEvents (claimed.map (· - 1)) es
      | .hole => BuildStep.ofEvents (claimed.map (· - 1)) es := by
  have hzero : 0 ∉ claimed := fun h0 => absurd (h 0 h0) (Nat.lt_irrefl 0)
  rw [BuildStep.ofEvents.eq_def]
  cases e <;> simp only [filter_claimed h, List.contains_eq_mem, hzero, decide_false,
    Bool.false_eq_true, if_false]

/-- A claimed start is passed over. -/
theorem ofEvents_claimed {claimed : List Nat} (h : ∀ c ∈ claimed, 0 < c) (e : Event)
    (es : List Event) :
    BuildStep.ofEvents (0 :: claimed) (e :: es) =
      BuildStep.ofEvents (claimed.map (· - 1)) es := by
  have hfilter : (0 :: claimed).filter (· ≠ 0) = claimed := by
    rw [List.filter_cons_of_neg (by simp), filter_claimed h]
  rw [BuildStep.ofEvents.eq_def]
  simp only [hfilter, List.contains_cons, beq_self_eq_true, Bool.true_or, if_true]

/-! ### The steps of events -/

/-- The step that ends a node. -/
theorem ofEvents_finish {claimed : List Nat} {n : Nat} (h : ∀ c ∈ claimed, n < c)
    (post : List Event) :
    BuildStep.ofEvents (claimed.map (· - n)) (.finish :: post) =
      .closeNode :: BuildStep.ofEvents (claimed.map (· - (n + 1))) post := by
  rw [ofEvents_unclaimed]
  · simp [Function.comp_def, Nat.sub_sub]
  · intro c hc
    obtain ⟨b, hb, rfl⟩ := List.mem_map.1 hc
    exact Nat.sub_pos_of_lt (h b hb)

mutual

/-- After the first event of a draft, the starts that it leads to are passed over. -/
theorem ofEvents_laterEvents (linked : Bool) (post : List Event) : ∀ (d : Draft)
    (claimed : List Nat), (∀ c ∈ claimed, d.size ≤ c + 1) →
      BuildStep.ofEvents (d.chain.map (·.1 - 1) ++ claimed) (d.laterEvents linked ++ post) =
        d.inside ++ BuildStep.ofEvents (claimed.map (· - (d.size - 1))) post
  | node kind parts, claimed, h => by
    have hlt : ∀ c ∈ claimed, sizeOfAll parts < c := by
      intro c hc
      have := h c hc
      simp only [size] at this
      omega
    have hparts := ofEvents_eventsOfAll (.finish :: post) parts claimed
      fun c hc => Nat.le_of_lt (hlt c hc)
    simp only [chain, laterEvents, inside, size, List.map_nil, List.nil_append, List.append_assoc,
      List.singleton_append]
    rw [hparts, ofEvents_finish hlt]
    rfl
  | around kind first parts, claimed, h => by
    have htwo := first.two_le_size
    have hlt : ∀ c ∈ claimed, first.size - 1 + 1 + sizeOfAll parts < c := by
      intro c hc
      have := h c hc
      simp only [size] at this
      omega
    have hfirst := ofEvents_laterEvents true (.start kind (link linked (sizeOfAll parts + 2)) ::
      (eventsOfAll parts ++ .finish :: post)) first ((first.size - 1) :: claimed)
      (by
        intro c hc
        rcases List.mem_cons.1 hc with rfl | hc
        · omega
        · have := hlt c hc
          omega)
    have hparts := ofEvents_eventsOfAll (.finish :: post) parts
      (claimed.map (· - (first.size - 1 + 1)))
      (by
        intro c hc
        obtain ⟨b, hb, rfl⟩ := List.mem_map.1 hc
        have := hlt b hb
        omega)
    have hmap : (claimed.map (· - (first.size - 1))).map (· - 1) =
        claimed.map (· - (first.size - 1 + 1)) := by
      simp [Function.comp_def, Nat.sub_sub]
    have hmap' : (claimed.map (· - (first.size - 1 + 1))).map (· - sizeOfAll parts) =
        claimed.map (· - (first.size - 1 + 1 + sizeOfAll parts)) := by
      simp [Function.comp_def, Nat.sub_sub]
    have hsize : first.size - 1 + 1 + sizeOfAll parts + 1 = size (around kind first parts) - 1 := by
      simp only [size]
      omega
    simp only [chain, laterEvents, inside, List.map_append, List.map_cons, List.map_nil,
      List.append_assoc, List.cons_append, List.nil_append]
    rw [hfirst, List.map_cons, Nat.sub_self, ofEvents_claimed, hmap, hparts, hmap',
      ofEvents_finish hlt, hsize]
    intro c hc
    obtain ⟨b, hb, rfl⟩ := List.mem_map.1 hc
    have := hlt b hb
    omega

/-- The steps of the events of some parts, if no start among them is claimed. -/
theorem ofEvents_eventsOfAll (post : List Event) : ∀ (parts : List (Piece Draft))
    (claimed : List Nat), (∀ c ∈ claimed, sizeOfAll parts ≤ c) →
      BuildStep.ofEvents claimed (eventsOfAll parts ++ post) =
        stepsOfAll parts ++ BuildStep.ofEvents (claimed.map (· - sizeOfAll parts)) post
  | [], claimed, h => by simp [eventsOfAll, stepsOfAll, sizeOfAll]
  | .word w :: ps, claimed, h => by
    have hpos : ∀ c ∈ claimed, sizeOfAll ps < c := fun c hc => h c hc
    have hps := ofEvents_eventsOfAll post ps (claimed.map (· - 1))
      (by
        intro c hc
        obtain ⟨b, hb, rfl⟩ := List.mem_map.1 hc
        have := hpos b hb
        omega)
    have hmap : (claimed.map (· - 1)).map (· - sizeOfAll ps) =
        claimed.map (· - (sizeOfAll ps + 1)) := by
      simp [Function.comp_def, Nat.sub_sub, Nat.add_comm]
    simp only [eventsOfAll, stepsOfAll, sizeOfAll, List.cons_append]
    rw [ofEvents_unclaimed fun c hc => Nat.zero_lt_of_lt (hpos c hc)]
    dsimp only
    rw [hps, hmap]
  | .node d :: ps, claimed, h => by
    have htwo := d.two_le_size
    have hle : ∀ c ∈ claimed, d.size + sizeOfAll ps ≤ c := h
    have hlater := ofEvents_laterEvents false (eventsOfAll ps ++ post) d (claimed.map (· - 1))
      (by
        intro c hc
        obtain ⟨b, hb, rfl⟩ := List.mem_map.1 hc
        have := hle b hb
        omega)
    have hps := ofEvents_eventsOfAll post ps (claimed.map (· - d.size))
      (by
        intro c hc
        obtain ⟨b, hb, rfl⟩ := List.mem_map.1 hc
        have := hle b hb
        omega)
    have hmap : (claimed.map (· - 1)).map (· - (d.size - 1)) = claimed.map (· - d.size) := by
      rw [List.map_map]
      refine List.map_congr_left fun c _ => ?_
      simp only [Function.comp_apply]
      omega
    have hmap' : (claimed.map (· - d.size)).map (· - sizeOfAll ps) =
        claimed.map (· - (d.size + sizeOfAll ps)) := by
      simp [Function.comp_def, Nat.sub_sub]
    simp only [eventsOfAll, stepsOfAll, sizeOfAll, List.append_assoc, List.cons_append]
    rw [events_eq_cons, List.cons_append, ofEvents_unclaimed]
    · have hchain := parents_firstLink false (eventsOfAll ps ++ post) d
      rw [if_neg (by simp), List.append_nil] at hchain
      dsimp only
      rw [hchain, hlater, hmap, hps, hmap', spine_eq_reverse]
    · intro c hc
      have := hle c hc
      omega

end

/-- The steps of the events of a whole draft. -/
theorem ofEvents_events (d : Draft) :
    BuildStep.ofEvents [] (d.events false) = .openNodes d.spine :: d.inside := by
  have h := ofEvents_eventsOfAll [] [.node d] [] (by simp)
  simpa [eventsOfAll, stepsOfAll, BuildStep.ofEvents] using h

end Draft

end CRBasic
