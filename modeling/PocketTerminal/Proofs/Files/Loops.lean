import PocketTerminal.Proofs.Files.Relocating

/-! # Searches and walks as loops

A name is looked for by halving the listing of a directory, and a walk keeps what is still to be
visited on a stack. In a forest, where listings are sorted by name, these loops find the entry,
the place for a new one and the visits that the definitions by recursion give. -/
namespace PocketTerminal.Files

/-- The place of an element in a window of a list, or where it would have to be put. -/
def halve {α : Type} (order : α → Ordering) (xs : List α) (low high : Nat) : Except Nat Nat :=
  if low < high then
    let middle := low + (high - low) / 2
    match (xs[middle]?).map order with
    | some .eq => .ok middle
    | some .lt => halve order xs (middle + 1) high
    | some .gt | none => halve order xs low middle
  else .error low
termination_by high - low

section Halve

variable {α : Type} {order : α → Ordering} {xs : List α} {low high place : Nat}

/-- A place of a list with what is smaller before it and what is greater behind it. -/
structure Splits (order : α → Ordering) (xs : List α) (place : Nat) : Prop where
  le_length : place ≤ xs.length
  lt_of_lt : ∀ i x, xs[i]? = some x → i < place → order x = .lt
  ne_lt : ∀ x, xs[place]? = some x → order x ≠ .lt
  gt_of_lt : ∀ i x, xs[i]? = some x → place < i → order x = .gt

theorem splits_takeWhile (h : xs.Pairwise fun x y => order x ≠ .lt → order y = .gt) :
    Splits order xs (xs.takeWhile (order · = .lt)).length := by
  induction xs with
  | nil => exact ⟨Nat.zero_le _, by simp, by simp, by simp⟩
  | cons x xs ih =>
    obtain ⟨hx, hxs⟩ := List.pairwise_cons.mp h
    by_cases hlt : order x = .lt
    · obtain ⟨hle, hbefore, hat, hbehind⟩ := ih hxs
      rw [List.takeWhile_cons_of_pos (by simpa using hlt), List.length_cons]
      refine ⟨Nat.succ_le_succ hle, ?_, fun y hy => hat y hy, ?_⟩
      · rintro (_ | i) y hy hi
        · obtain rfl := Option.some_inj.mp hy
          exact hlt
        · exact hbefore i y hy (Nat.lt_of_succ_lt_succ hi)
      · rintro (_ | i) y hy hi
        · cases hi
        · exact hbehind i y hy (Nat.lt_of_succ_lt_succ hi)
    · rw [List.takeWhile_cons_of_neg (by simpa using hlt), List.length_nil]
      refine ⟨Nat.zero_le _, fun i y _ hi => absurd hi (Nat.not_lt_zero i), ?_, ?_⟩
      · intro y hy
        obtain rfl := Option.some_inj.mp hy
        exact hlt
      · rintro (_ | i) y hy hi
        · cases hi
        · exact hx y (List.mem_of_getElem? hy) hlt

theorem Splits.eq_of_eq (h : Splits order xs place) {k : Nat}
    (hk : (xs[k]?).map order = some .eq) : k = place := by
  obtain ⟨x, hx, hxeq⟩ := Option.map_eq_some_iff.mp hk
  rcases Nat.lt_trichotomy k place with hless | rfl | hmore
  · rw [h.lt_of_lt k x hx hless] at hxeq
    cases hxeq
  · rfl
  · rw [h.gt_of_lt k x hx hmore] at hxeq
    cases hxeq

theorem Splits.lt_of_eq_lt (h : Splits order xs place) {k : Nat}
    (hk : (xs[k]?).map order = some .lt) : k < place := by
  obtain ⟨x, hx, hxlt⟩ := Option.map_eq_some_iff.mp hk
  rcases Nat.lt_trichotomy k place with hless | rfl | hmore
  · exact hless
  · exact absurd hxlt (h.ne_lt x hx)
  · rw [h.gt_of_lt k x hx hmore] at hxlt
    cases hxlt

theorem Splits.le_of_eq_gt (h : Splits order xs place) {k : Nat}
    (hk : (xs[k]?).map order = some .gt) : place ≤ k := by
  obtain ⟨x, hx, hxgt⟩ := Option.map_eq_some_iff.mp hk
  refine Nat.le_of_not_lt fun hless => ?_
  rw [h.lt_of_lt k x hx hless] at hxgt
  cases hxgt

/-- The place stays in the window, which shrinks to it. -/
theorem Splits.halve (h : Splits order xs place) (hlow : low ≤ place) (hhigh : place ≤ high)
    (hlength : high ≤ xs.length) :
    halve order xs low high =
      if place < high ∧ (xs[place]?).map order = some .eq then .ok place else .error place := by
  fun_induction Files.halve order xs low high with
  | case1 low high hlt middle heq =>
    obtain rfl : middle = place := h.eq_of_eq heq
    rw [if_pos ⟨by omega, heq⟩]
  | case2 low high hlt middle hless ih =>
    exact ih (h.lt_of_eq_lt hless) hhigh hlength
  | case3 low high hlt middle hmore ih =>
    have hplace := h.le_of_eq_gt hmore
    -- The window has lost its middle, which is not the place of an equal element.
    have hiff : place < middle ∧ (xs[place]?).map order = some .eq ↔
        place < high ∧ (xs[place]?).map order = some .eq := by
      refine and_congr_left fun heq => ?_
      have hne : place ≠ middle := by
        rintro rfl
        rw [hmore] at heq
        cases heq
      omega
    rw [ih hlow hplace (by omega), if_congr hiff rfl rfl]
  | case4 low high hlt middle hnone ih =>
    have hin : middle < xs.length := by omega
    rw [List.getElem?_eq_getElem hin] at hnone
    cases hnone
  | case5 low high hge =>
    obtain rfl : low = place := by omega
    rw [if_neg (by omega)]

end Halve

namespace Store

variable {s : Store} {dir i : Slot} {loose : Option Slot} {name : String} {n k : Nat}

def order (s : Store) (name : String) (slot : Slot) : Ordering :=
  match s.name? slot with
  | some own => compareOfLessAndEq own name
  | none => .gt

def searchName (s : Store) (dir : Slot) (name : String) : Except Nat Nat :=
  halve (s.order name) (s.children dir) 0 (s.children dir).length

theorem order_of_name {own : String} (h : s.name? i = some own) :
    s.order name i = compareOfLessAndEq own name := by
  rw [order, h]

theorem order_eq_lt_iff : s.order name i = .lt ↔ ∃ own, s.name? i = some own ∧ own < name := by
  cases hown : s.name? i with
  | none => simp [order, hown]
  | some own =>
    rw [order_of_name hown]
    constructor
    · intro hlt
      refine ⟨own, rfl, ?_⟩
      by_contra hge
      unfold compareOfLessAndEq at hlt
      rw [if_neg hge] at hlt
      split at hlt <;> cases hlt
    · rintro ⟨other, hother, hlt⟩
      obtain rfl := Option.some_inj.mp hother
      exact if_pos hlt

theorem order_eq_eq_iff : s.order name i = .eq ↔ s.name? i = some name := by
  constructor
  · intro heq
    cases hown : s.name? i with
    | none =>
      rw [order, hown] at heq
      cases heq
    | some own =>
      rw [order_of_name hown] at heq
      unfold compareOfLessAndEq at heq
      split at heq
      · cases heq
      · split at heq
        · next hname => exact congrArg some hname
        · cases heq
  · intro hown
    rw [order_of_name hown]
    unfold compareOfLessAndEq
    rw [if_neg (String.lt_irrefl name), if_pos rfl]

theorem isBefore_eq (s : Store) (name : String) :
    s.isBefore name = fun slot => decide (s.order name slot = .lt) := by
  funext slot
  apply Bool.eq_iff_iff.mpr
  rw [decide_eq_true_iff, order_eq_lt_iff]
  cases hown : s.name? slot <;> simp [isBefore, hown]

theorem Forest.pairwise_order (h : s.Forest loose) (dir : Slot) (name : String) :
    (s.children dir).Pairwise fun i j => s.order name i ≠ .lt → s.order name j = .gt := by
  refine (h.sorted dir).imp ?_
  rintro i j ⟨a, b, ha, hb, hab⟩ hi
  have hle : ¬ a < name := fun hlt => hi (order_eq_lt_iff.mpr ⟨a, ha, hlt⟩)
  cases hj : s.order name j with
  | gt => rfl
  | lt =>
    obtain ⟨c, hc, hcname⟩ := order_eq_lt_iff.mp hj
    obtain rfl : b = c := Option.some_inj.mp (hb.symm.trans hc)
    exact absurd (String.lt_trans hab hcname) hle
  | eq =>
    obtain rfl : b = name := Option.some_inj.mp (hb.symm.trans (order_eq_eq_iff.mp hj))
    exact absurd hab hle

/-- The first place of a listing whose name is not smaller. -/
theorem Forest.splits (h : s.Forest loose) (dir : Slot) (name : String) :
    Splits (s.order name) (s.children dir)
      ((s.children dir).takeWhile (s.isBefore name)).length := by
  rw [isBefore_eq]
  exact splits_takeWhile (h.pairwise_order dir name)

/-- Halving finds the entry that has a name. -/
theorem Forest.find?_eq_searchName (h : s.Forest loose) (dir : Slot) (name : String) :
    s.find? dir name =
      match s.searchName dir name with
      | .ok place => (s.children dir)[place]?
      | .error _ => none := by
  have hsplits := h.splits dir name
  unfold searchName
  rw [hsplits.halve (Nat.zero_le _) hsplits.le_length le_rfl]
  split
  · next place hplace =>
    split at hplace
    · next hfound =>
      obtain ⟨slot, hslot, hname⟩ := Option.map_eq_some_iff.mp hfound.2
      cases hplace
      rw [hslot]
      exact h.find?_eq_some_iff.mpr ⟨List.mem_of_getElem? hslot, order_eq_eq_iff.mp hname⟩
    · cases hplace
  · next place hplace =>
    split at hplace
    · cases hplace
    · next hmissing =>
      refine find?_eq_none_iff.mpr fun i hi hname => hmissing ?_
      obtain ⟨k, hk⟩ := List.mem_iff_getElem?.mp hi
      have heq : ((s.children dir)[k]?).map (s.order name) = some .eq := by
        rw [hk, Option.map_some, order_eq_eq_iff.mpr hname]
      obtain rfl := hsplits.eq_of_eq heq
      exact ⟨(List.getElem?_eq_some_iff.mp hk).1, heq⟩

theorem placeByName_eq (s : Store) (name : String) (slot : Slot) (others : List Slot) :
    s.placeByName name slot others =
      others.insertIdx (others.takeWhile (s.isBefore name)).length slot := by
  unfold placeByName
  induction others with
  | nil => rfl
  | cons other others ih =>
    cases hbefore : s.isBefore name other with
    | true => simp [hbefore, ih]
    | false => simp [hbefore]

/-- Halving finds the place of a new entry. -/
theorem Forest.placeByName_eq_insertIdx (h : s.Forest loose) (dir slot : Slot) (name : String) :
    s.placeByName name slot (s.children dir) =
      match s.searchName dir name with
      | .ok place | .error place => (s.children dir).insertIdx place slot := by
  have hsplits := h.splits dir name
  have hinsert := placeByName_eq s name slot (s.children dir)
  unfold searchName
  rw [hsplits.halve (Nat.zero_le _) hsplits.le_length le_rfl]
  split
  · next place hplace =>
    split at hplace
    · cases hplace
      exact hinsert
    · cases hplace
  · next place hplace =>
    split at hplace
    · cases hplace
    · cases hplace
      exact hinsert

abbrev Pending := Slot × String × Nat

def pushAll (s : Store) (path : String) (depth : Nat) (slots : List Slot) (stack : List Pending) :
    List Pending :=
  slots.reverse.foldl
    (fun stack slot => (slot, Path.join path ((s.name? slot).getD ""), depth + 1) :: stack) stack

/-- A walk as a loop: what is on top of the stack is visited, and its entries are pushed in its
place. -/
inductive Walked (s : Store) : List Pending → List Visit → Prop
  | done : Walked s [] []
  | visit {slot : Slot} {path : String} {depth : Nat} {e : Entry} {stack : List Pending}
      {visits : List Visit} (he : s.at? slot = some e)
      (hrest : Walked s (s.pushAll path depth e.children stack) visits) :
      Walked s ((slot, path, depth) :: stack) ({ path := path, depth := depth, entry := e } :: visits)

theorem pushAll_eq (path : String) (depth : Nat) (slots : List Slot) (stack : List Pending) :
    s.pushAll path depth slots stack =
      slots.map (fun slot => (slot, Path.join path ((s.name? slot).getD ""), depth + 1)) ++ stack := by
  unfold pushAll
  rw [List.foldl_reverse]
  induction slots with
  | nil => rfl
  | cons slot slots ih => rw [List.foldr_cons, ih, List.map_cons, List.cons_append]

theorem Walked.unique {stack : List Pending} {visits visits' : List Visit} (h : s.Walked stack visits)
    (h' : s.Walked stack visits') : visits = visits' := by
  induction h generalizing visits' with
  | done =>
    cases h'
    rfl
  | visit he _ ih =>
    cases h' with
    | visit he' hrest' =>
      rw [he] at he'
      obtain rfl := Option.some_inj.mp he'
      rw [ih hrest']

/-- With levels enough for the deepest slot, the visits of a tree are those of the loop while the
tree is on top of the stack. -/
theorem Forest.walked_visitsAt (h : s.Forest loose) {depth : Nat} {path : String}
    {stack : List Pending} {visits : List Visit} (hi : s.Depth i k) (hn : s.slots.size ≤ k + n)
    (hstack : s.Walked stack visits) :
    s.Walked ((i, path, depth) :: stack) (s.visitsAt n path depth i ++ visits) := by
  induction n generalizing i k depth path stack visits with
  | zero => exact absurd hi.lt_size (by omega)
  | succ n ih =>
    obtain ⟨e, he⟩ := hi.live
    -- The entries of the directory are taken off the stack one by one, so it is in order while only
    -- some of them are still on it.
    have hbelow : ∀ slots : List Slot, (∀ child ∈ slots, child ∈ s.children i) → s.Walked
        (slots.map (fun slot => (slot, Path.join path ((s.name? slot).getD ""), depth + 1)) ++ stack)
        (slots.flatMap (fun child =>
          s.visitsAt n (Path.join path ((s.name? child).getD "")) (depth + 1) child) ++ visits) := by
      intro slots hslots
      induction slots with
      | nil => exact hstack
      | cons child slots ihSlots =>
        obtain ⟨hchild, hslots⟩ := List.forall_mem_cons.mp hslots
        rw [List.flatMap_cons, List.append_assoc]
        exact ih (h.depth_child hi hchild) (by omega) (ihSlots hslots)
    have hall := hbelow e.children fun child hchild => children_eq he ▸ hchild
    simp only [visitsAt, he, List.cons_append]
    refine .visit he ?_
    rw [pushAll_eq]
    exact hall

/-- The walk from what an input names is the loop that starts with it alone on the stack. -/
theorem Forest.walked_walk (h : s.Forest loose) {input : String} {slot : Slot}
    (hslot : s.lookup (s.resolve input) = some slot) :
    s.Walked [(slot, s.resolve input, 0)] (s.walk input) := by
  obtain ⟨k, hk⟩ := h.grounded (h.live_of_lookup hslot)
  have hwalked : s.Walked [(slot, s.resolve input, 0)]
      (s.visitsAt s.slots.size (s.resolve input) 0 slot ++ []) :=
    h.walked_visitsAt hk (Nat.le_add_left ..) .done
  unfold walk
  dsimp only
  rw [hslot]
  rwa [List.append_nil] at hwalked

end Store
end PocketTerminal.Files
