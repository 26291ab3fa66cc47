import PocketTerminal.Proofs.Files.Landings
import PocketTerminal.Proofs.Files.Runs

/-! # What a move does

A move takes the whole tree at a path to another path, with all that can be read in it, and
leaves every other path alone. It is refused exactly where there is no room to land. -/
namespace PocketTerminal.Files.Store

variable {s t u : Store} {i d dir source : Slot} {name : String} {p q S D : List String}

def relocate (s : Store) (source dir : Slot) (name : String) : Store :=
  ((s.unlink source).modify source fun e => { e with name := name }).link dir source

@[simp] theorem relocate_cwd : (s.relocate source dir name).cwd = s.cwd := by simp [relocate]

@[simp] theorem relocate_home : (s.relocate source dir name).home = s.home := by simp [relocate]

@[simp] theorem relocate_count : (s.relocate source dir name).count = s.count := by
  simp [relocate, count]

@[simp] theorem sightAt?_relocate : (s.relocate source dir name).sightAt? i = s.sightAt? i := by
  rw [relocate, sightAt?_link, sightAt?_modify (Entry.sight_setName name), sightAt?_unlink]

/-- Nothing is above itself. -/
theorem Forest.not_within_parent (h : s.Forest none) (hp : s.parent? i = some d) :
    ¬ s.Within d i := by
  intro hw
  obtain ⟨n, hn⟩ := h.grounded (live_of_isDirectory (h.directory_of_parent hp))
  have := hw.depth_le hn (.step hp hn)
  omega

section Relocate

variable (h : s.Forest none) (hl : s.Live source) (hroot : source ≠ root)
  (hdir : s.isDirectory dir = true) (hout : ¬ s.Within dir source)
  (ht : (s.relocate source dir name).Forest none)
include h hl hroot hdir hout

theorem links_relocate (i : Slot) :
    (s.relocate source dir name).parent? i = (if i = source then some dir else s.parent? i) ∧
      (s.relocate source dir name).name? i = if i = source then some name else s.name? i := by
  have hne : dir ≠ source := by
    rintro rfl
    exact hout (.refl dir)
  have hdirectory : ((s.unlink source).modify source fun e => { e with name := name }).isDirectory
      dir = true := by
    rwa [isDirectory_rename, isDirectory_unlink h hl hroot]
  have hlive := (live_rename source name source).mpr ((live_unlink h hl hroot source).mpr hl)
  rw [relocate, parent?_link hdirectory hlive hne, name?_link hdirectory hlive hne, parent?_rename,
    name?_rename, parent?_unlink h hl hroot, name?_unlink h hl hroot]
  by_cases hi : i = source
  · obtain ⟨old, hold⟩ := hl.name?
    rw [hi, hold]
    simp
  · simp [hi]

include ht

/-- Only the source is found elsewhere. -/
theorem find?_relocate {x : String} : (s.relocate source dir name).find? d x = some i ↔
    i = source ∧ d = dir ∧ x = name ∨ i ≠ source ∧ s.find? d x = some i := by
  have hlinks : (s.relocate source dir name).parent? i = _ ∧
      (s.relocate source dir name).name? i = _ := links_relocate h hl hroot hdir hout i
  obtain ⟨hparent, hname⟩ := hlinks
  rw [ht.find?_iff, h.find?_iff, hparent, hname]
  by_cases hi : i = source
  · simp only [hi, if_true, Option.some.injEq, true_and, ne_eq, not_true_eq_false, false_and,
      or_false]
    exact and_congr eq_comm eq_comm
  · simp [hi]

/-- The tree below the source stays as it was. -/
theorem descend_relocate_below (hd : s.Within d source) {names : List String} :
    (s.relocate source dir name).descend d names = s.descend d names := by
  induction names generalizing d with
  | nil => rw [descend, descend]
  | cons x rest ih =>
    have hfind : (s.relocate source dir name).find? d x = s.find? d x := by
      -- The directory that gains an entry is outside the source, and the one that loses it is above.
      refine Option.ext fun c => (find?_relocate h hl hroot hdir hout ht).trans ⟨?_, fun hc => ?_⟩
      · rintro (⟨-, rfl, -⟩ | ⟨-, hc⟩)
        · exact absurd hd hout
        · exact hc
      · refine .inr ⟨?_, hc⟩
        rintro rfl
        exact h.not_within_parent (h.find?_iff.mp hc).1 hd
    rw [descend, descend, hfind]
    cases hc : s.find? d x with
    | none => rw [Option.bind_none, Option.bind_none]
    | some c => exact ih (.up (h.find?_iff.mp hc).1 hd)

/-- Away from the new place, the paths through the old one are gone and no others. -/
theorem descend_relocate (hS : s.descend root S = some source) (hq : s.descend root q = some dir)
    (hp : ¬ q ++ [name] <+: p) : (s.relocate source dir name).descend root p =
      if S <+: p then none else s.descend root p := by
  refine h.descend_without hroot hS (fun p => ¬ q ++ [name] <+: p) ?_ ?_ hp
  · exact fun r x hnot hpre => hnot (hpre.trans (List.prefix_append r [x]))
  · intro r d x hr hd hknown c
    rw [find?_relocate h hl hroot hdir hout ht]
    constructor
    · rintro (⟨-, rfl, rfl⟩ | ⟨hne, hc⟩)
      · rw [h.descend_inj hr hq] at hknown
        exact absurd List.prefix_rfl hknown
      · exact ⟨hc, hne⟩
    · rintro ⟨hc, hne⟩
      exact .inr ⟨hne, hc⟩

/-- At the new place is what was at the old one. -/
theorem descend_relocate_landed (hS : s.descend root S = some source)
    (hq : s.descend root q = some dir) {rest : List String} :
    (s.relocate source dir name).descend root (q ++ [name] ++ rest) =
      s.descend root (S ++ rest) := by
  have hqt : (s.relocate source dir name).descend root q = some dir := by
    rw [descend_relocate h hl hroot hdir hout ht hS hq, if_neg, hq]
    · exact fun hpre => hout ((h.within_iff_starts hS hq).mpr hpre)
    · intro hpre
      have hlength := hpre.length_le
      rw [List.length_append, List.length_singleton] at hlength
      omega
  have hfind : (s.relocate source dir name).find? dir name = some source :=
    (find?_relocate h hl hroot hdir hout ht).mpr (.inl ⟨rfl, rfl, rfl⟩)
  rw [descend_trans, descend_append, hqt, Option.bind_some, hfind, Option.bind_some,
    descend_relocate_below h hl hroot hdir hout ht (.refl source), descend_trans, hS,
    Option.bind_some]

end Relocate

theorem sight?_congr (hslots : t.slots = s.slots) : t.sight? p = s.sight? p := by
  have hat (i : Slot) : t.at? i = s.at? i := by rw [at?, hslots, at?]
  have hfind (d : Slot) (x : String) : t.find? d x = s.find? d x := by
    simp only [find?, children, name?, hat]
  unfold sight? sightAt?
  rw [descend_congr hfind]
  simp only [hat]

theorem exists_repairCwd_eq (s : Store) : ∃ cwd, s.repairCwd = { s with cwd := cwd } := by
  unfold repairCwd
  split
  · exact ⟨s.cwd, rfl⟩
  · exact ⟨_, rfl⟩

@[simp] theorem repairCwd_slots : s.repairCwd.slots = s.slots := by
  obtain ⟨cwd, he⟩ := exists_repairCwd_eq s
  rw [he]

@[simp] theorem repairCwd_count : s.repairCwd.count = s.count := by
  obtain ⟨cwd, he⟩ := exists_repairCwd_eq s
  rw [he, count, count]

@[simp] theorem repairCwd_home : s.repairCwd.home = s.home := by
  obtain ⟨cwd, he⟩ := exists_repairCwd_eq s
  rw [he]

theorem repairCwd_cwd : s.repairCwd.cwd =
    if s.repairCwd.leadsToDirectory (Path.components s.cwd) then s.cwd
    else if s.repairCwd.leadsToDirectory (Path.components s.home) then s.home
    else "/" := by
  have hleads (names : List String) :
      s.repairCwd.leadsToDirectory names = s.leadsToDirectory names := by
    rw [leadsToDirectory, sight?_congr repairCwd_slots, leadsToDirectory]
  rw [hleads, hleads, ← hasDirectory_eq, ← hasDirectory_eq]
  by_cases hd : s.hasDirectory s.cwd = true
  · rw [repairCwd, if_pos hd, if_pos hd]
  · rw [repairCwd, if_neg hd, if_neg hd]

/-- The conditions under which a source can be moved to its landing place. -/
structure Movable (s : Store) (source landing : List String) : Prop where
  exists_source : (s.sight? source).isSome = true
  source_below_root : source ≠ []
  room : s.HasRoom source landing

/-- What stands where after a move. -/
structure Moved (s t : Store) (source landing : List String) : Prop where
  landed : ∀ rest, t.sight? (landing ++ rest) = s.sight? (source ++ rest)
  gone : landing ≠ source → ∀ rest, t.sight? (source ++ rest) = none
  elsewhere : ∀ path, ¬ source <+: path → ¬ landing <+: path → t.sight? path = s.sight? path
  /-- One entry less where a file has made way. -/
  count_eq : t.count + (if landing ≠ source ∧ (s.sight? landing).isSome then 1 else 0) = s.count
  home_eq : t.home = s.home
  cwd_eq : t.cwd =
    if t.leadsToDirectory (Path.components s.cwd) then s.cwd
    else if t.leadsToDirectory (Path.components s.home) then s.home
    else "/"

theorem Vacated.sight?_eq (hv : s.Vacated u S D) (hp : ¬ (D ≠ S ∧ D <+: p)) :
    u.sight? p = s.sight? p := by
  have hd := hv.descend_eq p
  rw [if_neg hp] at hd
  unfold sight?
  cases hi : s.descend root p with
  | none => rw [hd, hi]; rfl
  | some i =>
    rw [hi] at hd
    rw [hd]
    exact hv.sightAt?_eq hd

/-- A place that has to make way is not on the way to anything in the source. -/
theorem HasRoom.not_above_append (hroom : s.HasRoom S D) (h : s.Forest none)
    (hS : s.descend root S = some source) (rest : List String) :
    ¬ (D ≠ S ∧ D <+: S ++ rest) := by
  rintro ⟨hne, hpre⟩
  rcases List.prefix_or_prefix_of_prefix hpre (List.prefix_append S rest) with hD | hS'
  · exact hroom.not_above h hS hne hD
  · exact hroom.not_below hne hS'

theorem sight?_relocate {p' : List String}
    (hd : (s.relocate source dir name).descend root p = s.descend root p') :
    (s.relocate source dir name).repairCwd.sight? p = s.sight? p' := by
  rw [sight?_congr repairCwd_slots, sight?, hd, sight?]
  exact congrArg _ (funext fun _ => sightAt?_relocate)

/-- The names that a landing place has to have. -/
theorem HasRoom.exists_place (hroom : s.HasRoom S D) : ∃ q name dir, D = q ++ [name] ∧
    s.descend root q = some dir ∧ s.isDirectory dir = true := by
  rcases List.eq_nil_or_concat D with rfl | ⟨q, name, rfl⟩
  · exact absurd rfl hroom.below_root
  · rw [List.concat_eq_append] at hroom ⊢
    have hdirectory := hroom.directory
    rw [List.dropLast_concat] at hdirectory
    obtain ⟨dir, hq, hdir⟩ := leadsToDirectory_iff.mp hdirectory
    exact ⟨q, name, dir, rfl, hq, hdir⟩

/-- The source, the directory and the name to land under, and the store with the place
cleared, where there is room. Moves and copies begin with it. -/
def approach? (s : Store) (input destination : String) : Option (Slot × Slot × String × Store) :=
  match s.lookup (s.resolve input) with
  | none => none
  | some source =>
    if source = root then none
    else
      match s.landing? source (s.resolve destination) with
      | none => none
      | some (dir, name) =>
        match s.clearLanding source dir name with
        | (false, _) => none
        | (true, u) => some (source, dir, name, u)

theorem clearLanding_refused (hno : (s.clearLanding source dir name).1 = false) :
    (s.clearLanding source dir name).2 = s := by
  unfold clearLanding at hno ⊢
  split
  · rfl
  · next hw =>
    rw [if_neg hw] at hno
    split
    · rfl
    · next there hf =>
      simp only [hf] at hno
      split
      · rfl
      · next he =>
        rw [if_neg he] at hno
        split
        · rfl
        · next hfiles =>
          rw [if_neg hfiles] at hno
          cases hno

theorem move_eq (s : Store) (input destination : String) : s.move input destination =
    match s.approach? input destination with
    | none => (false, s)
    | some (source, dir, name, u) => (true, (u.relocate source dir name).repairCwd) := by
  unfold move approach?
  dsimp only
  cases s.lookup (s.resolve input) with
  | none => rfl
  | some source =>
    dsimp only
    by_cases hroot : source = root
    · rw [if_pos hroot, if_pos hroot]
    · rw [if_neg hroot, if_neg hroot]
      cases s.landing? source (s.resolve destination) with
      | none => rfl
      | some place =>
        obtain ⟨dir, name⟩ := place
        dsimp only
        cases hc : s.clearLanding source dir name with
        | mk done u =>
          cases done with
          | true => rfl
          | false =>
            have hkept := clearLanding_refused (congrArg Prod.fst hc)
            rw [hc] at hkept
            rw [← hkept]

/-- What is known on the way: the source is below the root, and there is room for it under a
proper name in a directory. -/
structure Passage (s u : Store) (source dir : Slot) (name : String) (S q : List String) : Prop where
  cleared : s.Cleared u source dir name
  vacated : s.Vacated u S (q ++ [name])
  room : s.HasRoom S (q ++ [name])
  below_root : source ≠ root
  proper : Path.ProperName name
  source_eq : s.descend root S = some source
  dir_eq : s.descend root q = some dir
  directory : s.isDirectory dir = true

section Approach

variable {input destination : String} (h : s.Forest none) (hS : s.trail input = S)
  (hD : s.landing S (s.trail destination) = D)
include h hS hD

theorem exists_passage (happroach : s.approach? input destination = some (source, dir, name, u)) :
    ∃ q, D = q ++ [name] ∧ s.Passage u source dir name S q := by
  have hnormal : Path.isNormal (s.resolve destination) = true := Path.isNormal_resolve ..
  unfold approach? at happroach
  split at happroach
  · cases happroach
  next slot hlookup =>
  split at happroach
  · cases happroach
  next hroot =>
  split at happroach
  · cases happroach
  next place d x hland =>
  split at happroach
  · cases happroach
  next cleared v hc =>
  cases happroach
  rw [lookup_resolve, hS] at hlookup
  obtain ⟨q, he, hq, hdir⟩ := (landing?_eq_some_iff h hroot hlookup hnormal).mp hland
  rcases h.clearLanding_spec name (h.live_of_descend h.root_live hlookup) hdir with
    hkept | ⟨w, hw, hu⟩
  · rw [hkept] at hc
    cases hc
  · obtain rfl : w = u := congrArg Prod.snd (hw.symm.trans hc)
    exact ⟨q, hD.symm.trans he, hu, vacated_clearLanding h hlookup hq hc,
      (clearLanding_iff h hlookup hq hdir).mp (congrArg Prod.fst hc), hroot,
      (h.landing?_spec hroot hnormal hland).2, hlookup, hq, hdir⟩

/-- The landing place is reached exactly where the source is there, below the root, and has
room to land. -/
theorem exists_approach_iff : (∃ found, s.approach? input destination = some found) ↔
    s.Movable S D := by
  constructor
  · rintro ⟨⟨source, dir, name, u⟩, happroach⟩
    obtain ⟨q, rfl, hp⟩ := exists_passage h hS hD happroach
    refine ⟨h.sight?_isSome_iff.mpr ⟨source, hp.source_eq⟩, ?_, hp.room⟩
    rintro rfl
    exact hp.below_root (Option.some.inj hp.source_eq).symm
  · intro hm
    have hnormal : Path.isNormal (s.resolve destination) = true := Path.isNormal_resolve ..
    obtain ⟨source, hsource⟩ := h.sight?_isSome_iff.mp hm.exists_source
    obtain ⟨q, name, dir, rfl, hq, hdir⟩ := hm.room.exists_place
    have hroot : source ≠ root := by
      rintro rfl
      exact hm.source_below_root (h.descend_inj hsource rfl)
    have hland := (landing?_eq_some_iff h hroot hsource hnormal).mpr ⟨q, hD, hq, hdir⟩
    have hroom := (clearLanding_iff h hsource hq hdir).mpr hm.room
    have hlookup : s.lookup (s.resolve input) = some source := by
      rw [lookup_resolve, hS, hsource]
    cases hc : s.clearLanding source dir name with
    | mk done u =>
      rw [hc] at hroom
      cases hroom
      refine ⟨(source, dir, name, u), ?_⟩
      unfold approach?
      simp only [hlookup, if_neg hroot, hland, hc]

end Approach

namespace Passage

variable (hp : s.Passage u source dir name S q) (h : s.Forest none)
include hp

/-- What has made way is on the way to neither the source nor the directory it goes into. -/
theorem dir_eq_cleared : u.descend root q = some dir := by
  rw [hp.vacated.descend_eq, if_neg, hp.dir_eq]
  rintro ⟨-, hpre⟩
  have hlength := hpre.length_le
  rw [List.length_append, List.length_singleton] at hlength
  omega

theorem directory_cleared : u.isDirectory dir = true := hp.cleared.keeps.directory hp.directory

include h

theorem source_eq_cleared : u.descend root S = some source := by
  have hnot := hp.room.not_above_append h hp.source_eq []
  rw [List.append_nil] at hnot
  rw [hp.vacated.descend_eq, if_neg hnot, hp.source_eq]

theorem sight?_source (rest : List String) : u.sight? (S ++ rest) = s.sight? (S ++ rest) :=
  hp.vacated.sight?_eq (hp.room.not_above_append h hp.source_eq rest)

theorem moved : s.Moved (u.relocate source dir name).repairCwd S (q ++ [name]) := by
  have hu := hp.cleared
  have hSu := hp.source_eq_cleared h
  have hqu := hp.dir_eq_cleared
  have hdiru := hp.directory_cleared
  have ht : (u.relocate source dir name).Forest none :=
    hu.relocate hp.below_root hp.directory hp.proper
  have haway {p : List String} (hnot : ¬ q ++ [name] <+: p) :=
    descend_relocate hu.forest hu.source_live hp.below_root hdiru hu.outside ht hSu hqu hnot
  constructor
  · intro rest
    rw [sight?_relocate (descend_relocate_landed hu.forest hu.source_live hp.below_root hdiru
      hu.outside ht hSu hqu), hp.sight?_source h]
  · intro hne rest
    have hgone := haway fun hpre => hp.room.not_above_append h hp.source_eq rest ⟨hne, hpre⟩
    rw [if_pos (List.prefix_append S rest)] at hgone
    rw [sight?_congr repairCwd_slots, sight?, hgone, Option.bind_none]
  · intro path hs hl
    have hkept := haway hl
    rw [if_neg hs] at hkept
    rw [sight?_relocate hkept, hp.vacated.sight?_eq fun hpre => hl hpre.2]
  · rw [repairCwd_count, relocate_count]
    exact hp.vacated.count_eq
  · rw [repairCwd_home, relocate_home, hu.home_eq]
  · rw [repairCwd_cwd, relocate_cwd, relocate_home, hu.cwd_eq, hu.home_eq]

end Passage

theorem Forest.move_spec (h : s.Forest none) {input destination : String}
    (hS : s.trail input = S) (hD : s.landing S (s.trail destination) = D) :
    ((s.move input destination).1 = true ↔ s.Movable S D) ∧
      ((s.move input destination).1 = true → s.Moved (s.move input destination).2 S D) := by
  rw [move_eq, ← exists_approach_iff h hS hD]
  cases happroach : s.approach? input destination with
  | none => simp
  | some found =>
    obtain ⟨source, dir, name, u⟩ := found
    obtain ⟨q, rfl, hp⟩ := exists_passage h hS hD happroach
    have hsome : ∃ found, some (source, dir, name, u) = some found := ⟨_, rfl⟩
    dsimp only
    exact ⟨iff_of_true rfl hsome, fun _ => hp.moved h⟩

/-- For every store that comes about, and whatever is typed: a move is done exactly where
the source is there, below the root, and has room to land, and then takes all that is at or
below the source to the landing place. -/
theorem run_move (origin : Origin) (changes : List Change) {input destination : String}
    {source landing : List String} (hsource : (run origin changes).trail input = source)
    (hlanding : (run origin changes).landing source ((run origin changes).trail destination) =
      landing) :
    (((run origin changes).move input destination).1 = true ↔
        (run origin changes).Movable source landing) ∧
      (((run origin changes).move input destination).1 = true →
        (run origin changes).Moved ((run origin changes).move input destination).2 source landing) :=
  ((settled_origin origin).foldl_perform changes).forest.move_spec hsource hlanding

/-- A directory goes into another one while the working directory is below it. -/
theorem run_move_directory :
    ∃ s, run (.empty "/home") [.createDir "a/b" true, .createDir "c" false, .changeDir "a/b"] = s ∧
      s.trail ".." = ["home", "a"] ∧
      s.landing ["home", "a"] (s.trail "~/c") = ["home", "c", "a"] ∧
      s.Movable ["home", "a"] ["home", "c", "a"] ∧
      s.Moved (s.move ".." "~/c").2 ["home", "a"] ["home", "c", "a"] := by
  have hsource : (run (.empty "/home") [.createDir "a/b" true, .createDir "c" false,
      .changeDir "a/b"]).trail ".." = ["home", "a"] := by decide +kernel
  have hlanding : (run (.empty "/home") [.createDir "a/b" true, .createDir "c" false,
      .changeDir "a/b"]).landing ["home", "a"] ((run (.empty "/home") [.createDir "a/b" true,
      .createDir "c" false, .changeDir "a/b"]).trail "~/c") = ["home", "c", "a"] := by
    decide +kernel
  have hdone : ((run (.empty "/home") [.createDir "a/b" true, .createDir "c" false,
      .changeDir "a/b"]).move ".." "~/c").1 = true := by decide +kernel
  obtain ⟨hmovable, hmoved⟩ := run_move (.empty "/home") [.createDir "a/b" true,
    .createDir "c" false, .changeDir "a/b"] hsource hlanding
  exact ⟨_, rfl, hsource, hlanding, hmovable.mp hdone, hmoved hdone⟩

end PocketTerminal.Files.Store
