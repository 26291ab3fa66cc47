import PocketTerminal.Proofs.Files.Runs
import PocketTerminal.Proofs.Files.Sights
import Mathlib.Data.List.Count

/-! # The order of a walk

A walk meets what is at or below its start, each entry once and at the path that leads to it,
in the order of the names along the paths. So a directory comes before its entries, entries of
one directory come in the order of their names, and every tree comes in one piece. -/
namespace PocketTerminal.Files

/-- In the order of names, nothing else stands between two paths that go on from the same one. -/
theorem prefix_of_between {top p q r : List String} (hp : top <+: p) (hr : top <+: r)
    (hpq : p < q) (hqr : q < r) : top <+: q := by
  induction top generalizing p q r with
  | nil => exact List.nil_prefix
  | cons name top ih =>
    obtain ⟨p', rfl⟩ := hp
    obtain ⟨r', rfl⟩ := hr
    cases q with
    | nil => cases hpq
    | cons x q =>
      simp only [List.cons_append, List.cons_lt_cons_iff] at hpq hqr
      rcases hpq with hlt | ⟨rfl, hpq⟩
      · rcases hqr with hlt' | ⟨rfl, -⟩
        · exact absurd (String.lt_trans hlt hlt') (String.lt_irrefl name)
        · exact absurd hlt (String.lt_irrefl x)
      · rcases hqr with hlt' | ⟨-, hqr⟩
        · exact absurd hlt' (String.lt_irrefl name)
        · exact List.cons_prefix_cons.mpr
            ⟨rfl, ih (List.prefix_append top p') (List.prefix_append top r') hpq hqr⟩

section Infix

variable {α : Type} {test : α → Bool} {items : List α}

/-- Where the test fails from some item on, the items that pass come first. -/
theorem filter_prefix (h : ∀ a b, [a, b].Sublist items → test b = true → test a = true) :
    items.filter test <+: items := by
  induction items with
  | nil => exact List.nil_prefix
  | cons a rest ih =>
    cases ha : test a with
    | true =>
      rw [List.filter_cons_of_pos ha]
      refine List.cons_prefix_cons.mpr ⟨rfl, ih ?_⟩
      intro b c hbc
      exact h b c (hbc.cons a)
    | false =>
      have hnone : rest.filter test = [] := by
        refine List.filter_eq_nil_iff.mpr ?_
        intro b hb hpass
        have hpass' := h a b ((List.singleton_sublist.mpr hb).cons_cons a) hpass
        rw [ha] at hpass'
        cases hpass'
      rw [List.filter_cons_of_neg (by simp [ha]), hnone]
      exact List.nil_prefix

/-- Where the test holds between any two items that pass, the items that pass are in one piece. -/
theorem filter_infix
    (h : ∀ a b c, [a, b, c].Sublist items → test a = true → test c = true → test b = true) :
    items.filter test <:+: items := by
  induction items with
  | nil => exact List.infix_rfl
  | cons a rest ih =>
    cases ha : test a with
    | true =>
      rw [List.filter_cons_of_pos ha]
      refine (List.cons_prefix_cons.mpr ⟨rfl, filter_prefix ?_⟩).isInfix
      intro b c hbc
      exact h a b c (hbc.cons_cons a) ha
    | false =>
      rw [List.filter_cons_of_neg (by simp [ha])]
      refine (ih ?_).trans (List.suffix_cons a rest).isInfix
      intro b c d hbcd
      exact h b c d (hbcd.cons a)

end Infix

namespace Store

variable {s t : Store} {i start : Slot} {n depth : Nat} {path name input : String}
  {names : List String} {visits : List Visit} {loose : Option Slot}

/-- The path, in normal form, leads to the entry in the slot. -/
structure Leads (s : Store) (path : String) (i : Slot) : Prop where
  normal : Path.isNormal path = true
  lookup_eq : s.lookup path = some i

/-- The path of a visit leads to its entry, and its depth is counted from a path above. -/
structure Meets (s : Store) (top : List String) (depth : Nat) (v : Visit) : Prop where
  normal : Path.isNormal v.path = true
  entry_eq : (s.lookup v.path).bind s.at? = some v.entry
  below : ∃ names, Path.components v.path = top ++ names ∧ v.depth = depth + names.length

namespace Forest

variable (h : s.Forest loose)
include h

theorem proper_of_mem_children {dir : Slot} (hi : i ∈ s.children dir) (hn : s.name? i = some name) :
    Path.ProperName name := h.proper (h.ne_root_of_mem_children hi) hn

/-- A directory's path with the name of one of its entries leads to the entry. -/
theorem leads_join {dir : Slot} (hd : s.Leads path dir) (hi : i ∈ s.children dir)
    (hn : s.name? i = some name) : s.Leads (Path.join path name) i where
  normal := Path.isNormal_join hd.normal (h.proper_of_mem_children hi hn)
  lookup_eq := by
    have hfind := h.find?_eq_some_iff.mpr ⟨hi, hn⟩
    have hdir := hd.lookup_eq
    rw [lookup] at hdir ⊢
    rw [Path.components_join hd.normal (h.proper_of_mem_children hi hn), descend_append, hdir,
      Option.bind_some, hfind]

theorem meets_visitsAt (hl : s.Leads path i) :
    ∀ v ∈ s.visitsAt n path depth i, s.Meets (Path.components path) depth v := by
  induction n generalizing path depth i with
  | zero =>
    intro v hv
    cases hv
  | succ n ih =>
    intro v hv
    obtain ⟨e, he⟩ := h.live_of_descend h.root_live hl.lookup_eq
    simp only [visitsAt, he] at hv
    rcases List.mem_cons.mp hv with rfl | hv
    · exact ⟨hl.normal, by rw [hl.lookup_eq, Option.bind_some, he], [], by simp⟩
    · obtain ⟨c, hc, hv⟩ := List.mem_flatMap.mp hv
      rw [← children_eq he] at hc
      obtain ⟨name, hn⟩ := (h.live_of_mem_children hc).name?
      rw [hn, Option.getD_some] at hv
      obtain ⟨hnormal, hentry, names, hpath, hdepth⟩ := ih (h.leads_join hl hc hn) v hv
      rw [Path.components_join hl.normal (h.proper_of_mem_children hc hn)] at hpath
      exact ⟨hnormal, hentry, name :: names, by simp [hpath], by
        rw [hdepth, List.length_cons]
        omega⟩

/-- A walk goes through the slots of the tree at its start, one visit for each. -/
theorem map_lookup_visitsAt (hl : s.Leads path i) :
    (s.visitsAt n path depth i).map (fun v => s.lookup v.path) = (s.slotsAt n i).map some := by
  induction n generalizing path depth i with
  | zero => rfl
  | succ n ih =>
    obtain ⟨e, he⟩ := h.live_of_descend h.root_live hl.lookup_eq
    simp only [visitsAt, he, slotsAt, children_eq he, List.map_cons, List.map_flatMap, hl.lookup_eq]
    congr 1
    refine List.flatMap_congr fun c hc => ?_
    rw [← children_eq he] at hc
    obtain ⟨name, hn⟩ := (h.live_of_mem_children hc).name?
    rw [hn, Option.getD_some]
    exact ih (h.leads_join hl hc hn)

/-- The names along the paths go up strictly. -/
theorem visitsAt_pairwise (hl : s.Leads path i) : (s.visitsAt n path depth i).Pairwise
    fun v w => Path.components v.path < Path.components w.path := by
  induction n generalizing path depth i with
  | zero => exact .nil
  | succ n ih =>
    obtain ⟨e, he⟩ := h.live_of_descend h.root_live hl.lookup_eq
    -- Below an entry, paths go on with its name from the path of the directory.
    have hbelow {c : Slot} {name : String} (hc : c ∈ s.children i) (hn : s.name? c = some name) :
        ∀ v ∈ s.visitsAt n (Path.join path name) (depth + 1) c,
          ∃ rest, Path.components v.path = Path.components path ++ name :: rest := by
      intro v hv
      obtain ⟨-, -, rest, hpath, -⟩ := h.meets_visitsAt (h.leads_join hl hc hn) v hv
      rw [Path.components_join hl.normal (h.proper_of_mem_children hc hn)] at hpath
      exact ⟨rest, by simp [hpath]⟩
    simp only [visitsAt, he, ← children_eq he]
    refine List.pairwise_cons.mpr ⟨?_, List.pairwise_flatMap.mpr ⟨?_, ?_⟩⟩
    · intro v hv
      obtain ⟨c, hc, hv⟩ := List.mem_flatMap.mp hv
      obtain ⟨name, hn⟩ := (h.live_of_mem_children hc).name?
      rw [hn, Option.getD_some] at hv
      obtain ⟨rest, hpath⟩ := hbelow hc hn v hv
      have hlt : Path.components path ++ [] < Path.components path ++ name :: rest :=
        List.append_left_lt (List.nil_lt_cons name rest)
      rwa [List.append_nil, ← hpath] at hlt
    · intro c hc
      obtain ⟨name, hn⟩ := (h.live_of_mem_children hc).name?
      rw [hn, Option.getD_some]
      exact ih (h.leads_join hl hc hn)
    · refine (h.sorted i).imp_of_mem ?_
      rintro c d hc hd ⟨a, b, ha, hb, hab⟩ v hv w hw
      rw [ha, Option.getD_some] at hv
      rw [hb, Option.getD_some] at hw
      obtain ⟨p, hp⟩ := hbelow hc ha v hv
      obtain ⟨q, hq⟩ := hbelow hd hb w hw
      rw [hp, hq]
      exact List.append_left_lt (List.cons_lt_cons_iff.mpr (.inl hab))

end Forest

/-- A walk from an entry, which a path leads to: what is at or below it, each entry once and at
its own path, in the order of names and tree by tree. -/
structure Tours (s : Store) (path : String) (start : Slot) (visits : List Visit) : Prop where
  starts : ∃ e, s.at? start = some e ∧ visits.head? = some ⟨path, 0, e⟩
  normal : ∀ v ∈ visits, Path.isNormal v.path = true
  get?_eq : ∀ v ∈ visits, s.get? v.path = some v.entry
  below : ∀ v ∈ visits, ∃ names,
    Path.components v.path = Path.components path ++ names ∧ v.depth = names.length
  once : ∀ i, s.Within i start → visits.countP (fun v => s.lookup v.path == some i) = 1
  sorted : visits.Pairwise fun v w => Path.components v.path < Path.components w.path
  /-- What is at or below any one path comes in one piece. -/
  contiguous : ∀ top, (visits.filter fun v => top <+: Path.components v.path) <:+: visits

theorem get?_of_isNormal (hpath : Path.isNormal path = true) :
    s.get? path = (s.lookup path).bind s.at? := by
  rw [get?, resolve, Path.resolve_of_isNormal _ _ hpath]

theorem walk_eq_visitsAt (hi : s.lookup (s.resolve input) = some i) :
    s.walk input = s.visitsAt s.slots.size (s.resolve input) 0 i := by
  unfold walk
  dsimp only
  rw [hi]

theorem exists_visitsAt_eq_cons {e : Entry} (he : s.at? i = some e) (path : String) (depth : Nat) :
    ∃ rest, s.visitsAt s.slots.size path depth i = ⟨path, depth, e⟩ :: rest := by
  obtain ⟨n, hn⟩ := Nat.exists_eq_succ_of_ne_zero (Nat.ne_zero_of_lt (lt_size_of_live he))
  simp only [hn, visitsAt, he]
  exact ⟨_, rfl⟩

/-- A walk begins with what is at the place. -/
theorem exists_walk_eq_cons {e : Entry} (h : s.get? input = some e) :
    ∃ rest, s.walk input = ⟨s.resolve input, 0, e⟩ :: rest := by
  obtain ⟨i, hi, he⟩ := Option.bind_eq_some_iff.mp h
  rw [walk_eq_visitsAt hi]
  exact exists_visitsAt_eq_cons he (s.resolve input) 0

/-- A walk from a file meets nothing else. -/
theorem walk_of_file {e : Entry} (h : s.get? input = some e) (hfile : e.isDirectory = false) :
    s.walk input = [⟨s.resolve input, 0, e⟩] := by
  obtain ⟨i, hi, he⟩ := Option.bind_eq_some_iff.mp h
  obtain ⟨n, hn⟩ := Nat.exists_eq_succ_of_ne_zero (Nat.ne_zero_of_lt (lt_size_of_live he))
  have hchildren : e.children = [] := by
    unfold Entry.isDirectory at hfile
    unfold Entry.children
    cases hpayload : e.payload with
    | text content => rfl
    | children slots => simp [hpayload] at hfile
  rw [walk_eq_visitsAt hi, hn]
  simp only [visitsAt, he, hchildren, List.flatMap_nil]

namespace Forest

variable (h : s.Forest loose)
include h

theorem walk_eq_nil_iff : s.walk input = [] ↔ s.get? input = none := by
  cases hi : s.lookup (s.resolve input) with
  | none =>
    unfold get? walk
    dsimp only
    rw [hi]
    exact iff_of_true rfl rfl
  | some i =>
    obtain ⟨e, he⟩ := h.live_of_lookup hi
    obtain ⟨rest, hvisits⟩ := exists_visitsAt_eq_cons he (s.resolve input) 0
    rw [walk_eq_visitsAt hi, hvisits, get?, hi, Option.bind_some, he]
    exact iff_of_false (List.cons_ne_nil _ rest) (Option.some_ne_none e)

theorem countP_visitsAt (hl : s.Leads path i) {j : Slot} (hj : s.Within j i) :
    (s.visitsAt s.slots.size path depth i).countP (fun v => s.lookup v.path == some j) = 1 := by
  have hi : s.Live i := h.live_of_lookup hl.lookup_eq
  calc (s.visitsAt s.slots.size path depth i).countP (fun v => s.lookup v.path == some j)
      = ((s.visitsAt s.slots.size path depth i).map fun v => s.lookup v.path).count (some j) :=
        by rw [List.count_eq_countP, List.countP_map]; rfl
    _ = ((s.treeSlots i).map some).count (some j) := by rw [h.map_lookup_visitsAt hl, treeSlots]
    _ = (s.treeSlots i).count j :=
        List.count_map_of_injective _ some (fun _ _ => Option.some.inj) j
    _ = 1 := List.count_eq_one_of_mem (h.treeSlots_nodup hi) ((h.mem_treeSlots_iff hi).mpr hj)

theorem tours_visitsAt (hl : s.Leads path start) :
    s.Tours path start (s.visitsAt s.slots.size path 0 start) where
  starts := by
    obtain ⟨e, he⟩ := h.live_of_lookup hl.lookup_eq
    obtain ⟨rest, hvisits⟩ := exists_visitsAt_eq_cons he path 0
    exact ⟨e, he, by rw [hvisits, List.head?_cons]⟩
  normal v hv := (h.meets_visitsAt hl v hv).normal
  get?_eq v hv := by
    have hm := h.meets_visitsAt hl v hv
    rw [get?_of_isNormal hm.normal, hm.entry_eq]
  below v hv := by
    obtain ⟨names, hpath, hdepth⟩ := (h.meets_visitsAt hl v hv).below
    exact ⟨names, hpath, hdepth.trans (Nat.zero_add _)⟩
  once i hi := h.countP_visitsAt hl hi
  sorted := h.visitsAt_pairwise hl
  contiguous top := by
    refine filter_infix ?_
    intro a b c habc ha hc
    have hsorted := (h.visitsAt_pairwise hl).sublist habc
    simp only [List.pairwise_cons, List.mem_cons, List.not_mem_nil, or_false, forall_eq_or_imp,
      forall_eq] at hsorted
    obtain ⟨⟨hab, -⟩, hbc, -⟩ := hsorted
    simp only [decide_eq_true_eq] at ha hc ⊢
    exact prefix_of_between ha hc hab hbc

theorem tours_walk (hstart : s.lookup (s.resolve input) = some start) :
    s.Tours (s.resolve input) start (s.walk input) := by
  rw [walk_eq_visitsAt hstart]
  exact h.tours_visitsAt ⟨Path.isNormal_resolve .., hstart⟩

/-- Whatever is typed, a walk meets what stands at or below the place, and nothing else. -/
theorem exists_mem_walk_iff {e : Entry} : (∃ v ∈ s.walk input, v.path = path ∧ v.entry = e) ↔
    Path.isNormal path = true ∧ s.trail input <+: Path.components path ∧ s.get? path = some e := by
  constructor
  · rintro ⟨v, hv, rfl, rfl⟩
    cases hstart : s.lookup (s.resolve input) with
    | none =>
      have hnone : s.walk input = [] := h.walk_eq_nil_iff.mpr (by rw [get?, hstart, Option.bind_none])
      rw [hnone] at hv
      cases hv
    | some start =>
      have htours := h.tours_walk hstart
      obtain ⟨names, hpath, -⟩ := htours.below v hv
      exact ⟨htours.normal v hv, ⟨names, hpath.symm⟩, htours.get?_eq v hv⟩
  · rintro ⟨hnormal, hbelow, hentry⟩
    have hfound := hentry
    rw [get?_of_isNormal hnormal] at hfound
    obtain ⟨i, hi, -⟩ := Option.bind_eq_some_iff.mp hfound
    obtain ⟨start, hstart⟩ := exists_descend_on_way hi hbelow
    have htours := h.tours_walk hstart
    have honce := htours.once i ((h.within_iff_starts hstart hi).mpr hbelow)
    obtain ⟨v, hv, hvi⟩ := List.countP_pos_iff.mp (Nat.lt_of_lt_of_eq Nat.one_pos honce.symm)
    have hpath : v.path = path :=
      Path.eq_of_components (htours.normal v hv) hnormal (h.descend_inj (eq_of_beq hvi) hi)
    have hentry' := htours.get?_eq v hv
    rw [hpath, hentry] at hentry'
    exact ⟨v, hv, hpath, (Option.some.inj hentry').symm⟩

/-- The names along the paths of a walk go up strictly. -/
theorem walk_pairwise : (s.walk input).Pairwise
    fun v w => Path.components v.path < Path.components w.path := by
  cases hstart : s.lookup (s.resolve input) with
  | none =>
    rw [h.walk_eq_nil_iff.mpr (by rw [get?, hstart, Option.bind_none])]
    exact .nil
  | some start => exact (h.tours_walk hstart).sorted

end Forest

/-- For every store that comes about, and whatever is typed: a walk meets nothing exactly where
nothing is. From an entry it meets all that is at or below it, in the order of names. -/
theorem run_walk (origin : Origin) (changes : List Change) (input : String) :
    ((run origin changes).walk input = [] ↔ (run origin changes).get? input = none) ∧
      ∀ start, (run origin changes).lookup ((run origin changes).resolve input) = some start →
        (run origin changes).Tours ((run origin changes).resolve input) start
          ((run origin changes).walk input) := by
  have h := ((settled_origin origin).foldl_perform changes).forest
  refine ⟨h.walk_eq_nil_iff, ?_⟩
  intro start hstart
  exact h.tours_walk hstart

/-- The entries of a directory come before its neighbour, though `-` comes before `/`. -/
theorem run_walk_neighbours :
    ∃ s, run (.empty "/") [.createDir "a" false, .createFile "a-b" "", .createFile "a/x" ""] = s ∧
      s.lookup (s.resolve "/") = some root ∧
      (s.walk "/").map Visit.path = ["/", "/a", "/a/x", "/a-b"] ∧ s.Tours "/" root (s.walk "/") := by
  have hstart : (run (.empty "/") [.createDir "a" false, .createFile "a-b" "",
      .createFile "a/x" ""]).lookup ((run (.empty "/") [.createDir "a" false,
      .createFile "a-b" "", .createFile "a/x" ""]).resolve "/") = some root := by decide +kernel
  have hwalk : ((run (.empty "/") [.createDir "a" false, .createFile "a-b" "",
      .createFile "a/x" ""]).walk "/").map Visit.path = ["/", "/a", "/a/x", "/a-b"] := by
    decide +kernel
  have htours := (run_walk (.empty "/") [.createDir "a" false, .createFile "a-b" "",
    .createFile "a/x" ""] "/").2 root hstart
  exact ⟨_, rfl, hstart, hwalk, htours⟩

def trails (s : Store) : List (List String) := (s.walk "/").map fun v => Path.components v.path

namespace Forest

theorem tours_root (h : s.Forest loose) : s.Tours "/" root (s.walk "/") := by
  have hroot : s.resolve "/" = "/" := Path.resolve_of_isNormal _ _ Path.spells_root.isNormal
  have htours : s.Tours (s.resolve "/") root (s.walk "/") := h.tours_walk (by rw [hroot, lookup_root])
  rwa [hroot] at htours

theorem mem_trails_iff (h : s.Forest loose) : names ∈ s.trails ↔ (s.sight? names).isSome = true := by
  have htours := h.tours_root
  rw [h.sight?_isSome_iff, trails, List.mem_map]
  constructor
  · rintro ⟨v, hv, rfl⟩
    have hentry := htours.get?_eq v hv
    rw [get?_of_isNormal (htours.normal v hv)] at hentry
    obtain ⟨i, hi, -⟩ := Option.bind_eq_some_iff.mp hentry
    exact ⟨i, hi⟩
  · rintro ⟨i, hi⟩
    have honce := htours.once i (h.within_of_descend hi)
    obtain ⟨v, hv, hvi⟩ := List.countP_pos_iff.mp (Nat.lt_of_lt_of_eq Nat.one_pos honce.symm)
    exact ⟨v, hv, h.descend_inj (eq_of_beq hvi) hi⟩

theorem trails_nodup (h : s.Forest loose) : s.trails.Nodup := by
  refine List.pairwise_map.mpr (h.tours_root.sorted.imp ?_)
  intro v w hlt he
  rw [he] at hlt
  exact List.lt_irrefl _ hlt

theorem length_trails (h : s.Forest none) : s.trails.length = s.count := by
  rw [trails, List.length_map, h.count_eq_length_walk]

/-- Where something new stands at some paths and nothing has gone, the count goes up by them. -/
theorem count_eq_add {made : List (List String)} (h : s.Forest none) (ht : t.Forest none)
    (hnodup : made.Nodup) (hfree : ∀ p ∈ made, s.sight? p = none)
    (hmade : ∀ p, (t.sight? p).isSome = true ↔ (s.sight? p).isSome = true ∨ p ∈ made) :
    t.count = s.count + made.length := by
  have hapart : s.trails.Disjoint made := by
    refine List.disjoint_left.mpr ?_
    intro p hp hnew
    have hsome := h.mem_trails_iff.mp hp
    rw [hfree p hnew] at hsome
    cases hsome
  have hperm : t.trails.Perm (s.trails ++ made) := by
    refine (List.perm_ext_iff_of_nodup ht.trails_nodup
      (List.nodup_append'.mpr ⟨h.trails_nodup, hnodup, hapart⟩)).mpr ?_
    intro p
    rw [List.mem_append, ht.mem_trails_iff, h.mem_trails_iff, hmade]
  rw [← ht.length_trails, hperm.length_eq, List.length_append, h.length_trails]

end Forest
end Store
end PocketTerminal.Files
