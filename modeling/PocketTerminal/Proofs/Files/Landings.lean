import PocketTerminal.Proofs.Files.Sights

/-! # Landing places by their paths

Cutting out a tree empties every path through its top and no other. A source lands in the
destination or as the destination, and what it takes the place of is one file at most. -/
namespace PocketTerminal.Files

@[simp] theorem Entry.sight_relist (change : List Slot → List Slot) (e : Entry) :
    (e.relist change).sight = e.sight := by
  obtain ⟨name, pageSection, payload, parent⟩ := e
  cases payload <;> rfl

theorem Entry.sight_setParent (parent : Option Slot) (e : Entry) :
    ({ e with parent := parent } : Entry).sight = e.sight := rfl

theorem Entry.sight_setName (name : String) (e : Entry) :
    ({ e with name := name } : Entry).sight = e.sight := rfl

namespace Store

variable {s t : Store} {i j d dir top source : Slot} {name path : String}
  {a p q S : List String}

theorem sightAt?_modify {change : Entry → Entry} (h : ∀ e, (change e).sight = e.sight) :
    (s.modify i change).sightAt? j = s.sightAt? j := by
  unfold sightAt?
  rw [at?_modify]
  by_cases hj : j = i
  · subst hj
    cases s.at? j <;> simp [h]
  · rw [if_neg hj]

@[simp] theorem sightAt?_link : (s.link dir i).sightAt? j = s.sightAt? j := by
  unfold link
  rw [sightAt?_modify (Entry.sight_setParent _), sightAt?_modify (Entry.sight_relist _)]

@[simp] theorem sightAt?_unlink : (s.unlink i).sightAt? j = s.sightAt? j := by
  unfold unlink
  dsimp only
  rw [sightAt?_modify (Entry.sight_setParent _)]
  split
  · rfl
  · rw [sightAt?_modify (Entry.sight_relist _)]

section Detach

variable (h : s.Forest none) (hl : s.Live top) (hroot : top ≠ root)
include h hl hroot

theorem find?_detach (hd : ¬ s.Within d top) :
    (s.detach top).find? d name = some i ↔ s.find? d name = some i ∧ i ≠ top := by
  have hkeep {c : Slot} (hc : ¬ s.Within c top) :
      (s.detach top).parent? c = s.parent? c ∧ (s.detach top).name? c = s.name? c := by
    have hat := at?_detach h hl hc
    have hne : c ≠ top := by
      rintro rfl
      exact hc (.refl c)
    constructor
    · rw [parent?, hat]
      exact (parent?_unlink h hl hroot c).trans (if_neg hne)
    · rw [name?, hat]
      exact name?_unlink h hl hroot c
  rw [(h.detach hl hroot).find?_iff, h.find?_iff]
  constructor
  · rintro ⟨hp, hn⟩
    have hout : ¬ s.Within i top := fun hw =>
      not_live_iff.mpr (at?_detach_within h hl hw) (live_of_parent? hp)
    rw [(hkeep hout).1] at hp
    rw [(hkeep hout).2] at hn
    refine ⟨⟨hp, hn⟩, ?_⟩
    rintro rfl
    exact hout (.refl i)
  · rintro ⟨⟨hp, hn⟩, hne⟩
    have hout : ¬ s.Within i top := by
      intro hw
      cases hw with
      | refl _ => exact hne rfl
      | up hp' hw =>
        rw [hp] at hp'
        cases hp'
        exact hd hw
    rw [(hkeep hout).1, (hkeep hout).2]
    exact ⟨hp, hn⟩

/-- The paths through the top of the tree lead nowhere, and all others where they led. -/
theorem descend_detach (htop : s.descend root a = some top) :
    (s.detach top).descend root p = if a <+: p then none else s.descend root p :=
  h.descend_without hroot htop (fun _ => True) (fun _ _ => id)
    (fun _ _ _ _ hd _ _ => find?_detach h hl hroot hd) trivial

omit hroot in
theorem sightAt?_detach (hi : ¬ s.Within i top) : (s.detach top).sightAt? i = s.sightAt? i := by
  rw [sightAt?, at?_detach h hl hi]
  exact sightAt?_unlink

theorem count_detach : (s.detach top).count + (s.treeSlots top).length = s.count := by
  have hsize : (s.detach top).slots.size = s.slots.size := by simp [detach]
  have hfree : (s.detach top).free.length = (s.treeSlots top).length + s.free.length := by
    simp [detach]
  have hperm := (h.detach hl hroot).treeSlots_append_free_perm.length_eq
  rw [List.length_append, List.length_range, hsize, hfree] at hperm
  unfold count
  omega

end Detach

theorem treeSlots_of_file (h : s.Forest none) (hl : s.Live i) (hfile : s.isDirectory i = false) :
    (s.treeSlots i).length = 1 := by
  have hmem (j : Slot) : j ∈ s.treeSlots i ↔ j ∈ [i] := by
    rw [h.mem_treeSlots_iff hl, within_file_iff h hfile, List.mem_singleton]
  exact ((List.perm_ext_iff_of_nodup (h.treeSlots_nodup hl) (List.nodup_singleton i)).mpr
    hmem).length_eq

/-- The path under which a source lands: in the destination where that is a directory other
than the source itself, and as the destination otherwise. -/
def landing (s : Store) (source destination : List String) : List String :=
  if s.leadsToDirectory destination ∧ destination ≠ source then
    destination ++ source.getLast?.toList
  else destination

/-- The source can take the landing place, unless the place lies in the source. -/
structure HasRoom (s : Store) (source landing : List String) : Prop where
  /-- The place is below the root, in a directory. -/
  below_root : landing ≠ []
  directory : s.leadsToDirectory landing.dropLast = true
  outside : ¬ source <+: landing.dropLast
  /-- Only a file makes way, and only for a file. -/
  vacant : s.sight? landing = none ∨ landing = source ∨
    s.leadsToDirectory landing = false ∧ s.leadsToDirectory source = false

theorem HasRoom.not_below {D : List String} (hroom : s.HasRoom S D) (hne : D ≠ S) : ¬ S <+: D := by
  intro hpre
  rcases List.eq_nil_or_concat D with rfl | ⟨q, x, rfl⟩
  · exact hroom.below_root rfl
  · have houtside := hroom.outside
    rw [List.concat_eq_append] at hpre hne houtside
    rw [List.dropLast_concat] at houtside
    rcases List.prefix_concat_iff.mp hpre with he | hq
    · exact hne he.symm
    · exact houtside hq

/-- What makes way is a file, so that the source is not in it. -/
theorem HasRoom.not_above {D : List String} (hroom : s.HasRoom S D) (h : s.Forest none)
    (hS : s.descend root S = some source) (hne : D ≠ S) : ¬ D <+: S := by
  intro hpre
  obtain ⟨top, htop⟩ := exists_descend_on_way hS hpre
  rcases hroom.vacant with hfree | he | ⟨hfile, -⟩
  · rw [h.sight?_eq_none_iff, htop] at hfree
    cases hfree
  · exact hne he
  · rw [leadsToDirectory_of_descend htop] at hfile
    have he := (within_file_iff h hfile).mp ((h.within_iff_starts htop hS).mpr hpre)
    rw [he] at hS
    exact hne (h.descend_inj htop hS)

theorem name?_of_descend (h : s.Forest none) (hroot : source ≠ root)
    (hS : s.descend root S = some source) : s.name? source = S.getLast? := by
  rcases List.eq_nil_or_concat S with rfl | ⟨q, x, rfl⟩
  · exact absurd (Option.some.inj hS).symm hroot
  · rw [List.concat_eq_append] at hS ⊢
    obtain ⟨d, -, -, hn⟩ := h.descend_concat_iff.mp hS
    rw [hn, List.getLast?_concat]

theorem landing?_beside (h : (s.lookup path).filter
      (fun slot => s.isDirectory slot && slot != source) = none) :
    s.landing? source path = (s.lookup (Path.parent path)).bind fun d =>
      if s.isDirectory d && Path.fileName path != "" then some (d, Path.fileName path) else none := by
  unfold landing?
  rw [h]
  cases s.lookup (Path.parent path) <;> rfl

/-- Where the destination is not gone into, its parent is. -/
theorem beside_eq_some_iff (hnormal : Path.isNormal path = true) :
    ((s.lookup (Path.parent path)).bind fun d =>
      if s.isDirectory d && Path.fileName path != "" then some (d, Path.fileName path)
      else none) = some (dir, name) ↔
      ∃ q, Path.components path = q ++ [name] ∧ s.descend root q = some dir ∧
        s.isDirectory dir = true := by
  by_cases hpath : path = "/"
  · subst hpath
    have hname : Path.fileName "/" = "" := by decide
    rw [Path.spells_root.components, hname]
    simp
  have hname : Path.fileName path ≠ "" := (Path.properName_fileName hnormal hpath).1
  rw [Path.components_eq_parent_append hnormal hpath, lookup]
  have hsplit {q : List String} (he : Path.components (Path.parent path) ++ [Path.fileName path] =
      q ++ [name]) : Path.components (Path.parent path) = q ∧ Path.fileName path = name := by
    obtain ⟨hq, hx⟩ := List.append_inj' he rfl
    exact ⟨hq, List.singleton_injective hx⟩
  cases hd : s.descend root (Path.components (Path.parent path)) with
  | none =>
    simp only [Option.bind_none, reduceCtorEq, false_iff, not_exists, not_and]
    intro q he hq
    rw [← (hsplit he).1, hd] at hq
    cases hq
  | some d =>
    have hguard : (s.isDirectory d && Path.fileName path != "") = s.isDirectory d := by
      simp [hname]
    simp only [Option.bind_some, hguard, Option.ite_none_right_eq_some, Option.some.injEq, Prod.mk.injEq]
    constructor
    · rintro ⟨hdir, rfl, rfl⟩
      exact ⟨_, rfl, hd, hdir⟩
    · rintro ⟨q, he, hq, hdir⟩
      rw [← (hsplit he).1, hd] at hq
      cases hq
      exact ⟨hdir, rfl, (hsplit he).2⟩

/-- A place to land is a name in a directory. -/
theorem landing?_eq_some_iff (h : s.Forest none) (hroot : source ≠ root)
    (hS : s.descend root S = some source) (hnormal : Path.isNormal path = true) :
    s.landing? source path = some (dir, name) ↔
      ∃ q, s.landing S (Path.components path) = q ++ [name] ∧ s.descend root q = some dir ∧
        s.isDirectory dir = true := by
  have hlast := name?_of_descend h hroot hS
  unfold landing
  by_cases hin : s.leadsToDirectory (Path.components path) = true ∧ Path.components path ≠ S
  · obtain ⟨d, hd, hdir⟩ := leadsToDirectory_iff.mp hin.1
    have hne : d ≠ source := by
      rintro rfl
      exact hin.2 (h.descend_inj hd hS)
    obtain ⟨last, hname⟩ := (h.live_of_descend h.root_live hS).name?
    rw [hname] at hlast
    have hfilter : (s.lookup path).filter
        (fun slot => s.isDirectory slot && slot != source) = some d := by
      simp [lookup, hd, hdir, hne]
    unfold landing?
    rw [if_pos hin, hfilter, hname, ← hlast]
    simp only [Option.map_some, Option.toList_some, Option.some.injEq, Prod.mk.injEq]
    constructor
    · rintro ⟨rfl, rfl⟩
      exact ⟨_, rfl, hd, hdir⟩
    · rintro ⟨q, he, hq, -⟩
      obtain ⟨rfl, hx⟩ := List.append_inj' he rfl
      rw [hd] at hq
      exact ⟨Option.some.inj hq, List.singleton_injective hx⟩
  · have hfilter : (s.lookup path).filter
        (fun slot => s.isDirectory slot && slot != source) = none := by
      refine Option.filter_eq_none_iff.mpr fun d hd hboth => hin ?_
      rw [Bool.and_eq_true, bne_iff_ne] at hboth
      refine ⟨leadsToDirectory_iff.mpr ⟨d, hd, hboth.1⟩, fun he => hboth.2 ?_⟩
      rw [lookup, he, hS] at hd
      exact (Option.some.inj hd).symm
    rw [if_neg hin, landing?_beside hfilter]
    exact beside_eq_some_iff hnormal

/-- The store in which a source can land: but for the paths through a file that has made
way, all paths lead where they led. -/
structure Vacated (s t : Store) (source landing : List String) : Prop where
  descend_eq : ∀ p, t.descend root p =
    if landing ≠ source ∧ landing <+: p then none else s.descend root p
  sightAt?_eq : ∀ {p i}, t.descend root p = some i → t.sightAt? i = s.sightAt? i
  count_eq : t.count + (if landing ≠ source ∧ (s.sight? landing).isSome then 1 else 0) = s.count

/-- Where the place is free, or the source's own, nothing has to make way. -/
theorem vacated_self {D : List String} (h : s.Forest none)
    (hfree : D ≠ S → s.descend root D = none) : s.Vacated s S D where
  descend_eq p := by
    split
    · next hp =>
      rw [Option.eq_none_iff_forall_ne_some]
      intro i hi
      obtain ⟨d, hd⟩ := exists_descend_on_way hi hp.2
      rw [hfree hp.1] at hd
      cases hd
    · rfl
  sightAt?_eq _ := rfl
  count_eq := by
    rw [if_neg]
    · rfl
    · rintro ⟨hne, hsome⟩
      rw [h.sight?_isSome_iff, hfree hne] at hsome
      obtain ⟨i, hi⟩ := hsome
      cases hi

theorem vacated_detach {D : List String} (h : s.Forest none) (hne : D ≠ S)
    (hD : s.descend root D = some top) (hfile : s.isDirectory top = false) :
    s.Vacated (s.detach top) S D := by
  have hl := h.live_of_descend h.root_live hD
  have hroot := ne_root_of_file h hl hfile
  constructor
  · intro p
    rw [descend_detach h hl hroot hD]
    simp only [hne, ne_eq, not_false_eq_true, true_and]
  · intro p i hi
    rw [descend_detach h hl hroot hD] at hi
    refine sightAt?_detach h hl fun hw => ?_
    split at hi
    · cases hi
    · next hp => exact hp ((h.within_iff_starts hD hi).mp hw)
  · have hsome := h.sight?_isSome_iff.mpr ⟨top, hD⟩
    rw [if_pos ⟨hne, hsome⟩, ← treeSlots_of_file h hl hfile]
    exact count_detach h hl hroot

section Clear

variable (h : s.Forest none) (hS : s.descend root S = some source)
  (hq : s.descend root q = some dir) (hdir : s.isDirectory dir = true)
include h hS hq hdir

omit hdir in
theorem isWithin_iff_starts : s.isWithin dir source = true ↔ S <+: q := by
  rw [h.isWithin_iff (h.live_of_descend h.root_live hq), h.within_iff_starts hS hq]

omit hdir in
theorem eq_source_iff {there : Slot} (hthere : s.find? dir name = some there) :
    there = source ↔ q ++ [name] = S := by
  have hD : s.descend root (q ++ [name]) = some there := by
    rw [descend_append, hq, Option.bind_some, hthere]
  constructor
  · rintro rfl
    exact h.descend_inj hD hS
  · intro he
    rw [he, hS] at hD
    exact (Option.some.inj hD).symm

/-- The way is made exactly where there is room. -/
theorem clearLanding_iff : (s.clearLanding source dir name).1 = true ↔ s.HasRoom S (q ++ [name]) := by
  have hD : s.descend root (q ++ [name]) = s.find? dir name := by
    rw [descend_append, hq, Option.bind_some]
  have hroom : s.HasRoom S (q ++ [name]) ↔ ¬ S <+: q ∧ (s.sight? (q ++ [name]) = none ∨
      q ++ [name] = S ∨ s.leadsToDirectory (q ++ [name]) = false ∧ s.leadsToDirectory S = false) := by
    constructor
    · rintro ⟨-, -, houtside, hvacant⟩
      rw [List.dropLast_concat] at houtside
      exact ⟨houtside, hvacant⟩
    · rintro ⟨houtside, hvacant⟩
      refine ⟨by simp, ?_, ?_, hvacant⟩
      · rw [List.dropLast_concat, leadsToDirectory_of_descend hq, hdir]
      · rwa [List.dropLast_concat]
  rw [hroom, leadsToDirectory_of_descend hS, h.sight?_eq_none_iff, hD]
  unfold clearLanding
  by_cases hw : s.isWithin dir source = true
  · have hp := (isWithin_iff_starts h hS hq).mp hw
    simp [hw, hp]
  have hp := mt (isWithin_iff_starts h hS hq).mpr hw
  cases hf : s.find? dir name with
  | none => simp [hw, hp]
  | some there =>
    rw [leadsToDirectory_of_descend (hD.trans hf), ← eq_source_iff h hS hq hf]
    by_cases he : there = source
    · simp [hw, hp, he]
    · cases hthere : s.isDirectory there with
      | true => simp [hw, hp, he, hthere]
      | false => cases s.isDirectory source <;> simp [hw, hp, he, hthere]

omit hdir in
theorem vacated_clearLanding (hc : s.clearLanding source dir name = (true, t)) :
    s.Vacated t S (q ++ [name]) := by
  have hD : s.descend root (q ++ [name]) = s.find? dir name := by
    rw [descend_append, hq, Option.bind_some]
  unfold clearLanding at hc
  split at hc
  · cases hc
  split at hc
  · next hf =>
    cases hc
    exact vacated_self h fun _ => hD.trans hf
  · next there hf =>
    have hown := eq_source_iff h hS hq hf
    split at hc
    · next he =>
      cases hc
      exact vacated_self h fun hne => absurd (hown.mp he) hne
    · next he =>
      split at hc
      · cases hc
      · next hfiles =>
        cases hc
        simp only [Bool.or_eq_true, not_or, Bool.not_eq_true] at hfiles
        exact vacated_detach h (mt hown.mpr he) (hD.trans hf) hfiles.1

end Clear

end Store
end PocketTerminal.Files
