import PocketTerminal.Proofs.Files.Places
import PocketTerminal.Proofs.Files.Sowing

/-! # A store from its own listing

What a walk shows of a store can be written down as seeds. Planted again, each of them comes
upon directories made on the way to others at most, so that in the end all stands as it did. -/
namespace PocketTerminal.Files

def Visit.seed (v : Visit) : Seed where
  path := v.path
  content := v.entry.content?
  pageSection := v.entry.pageSection
  isDirectory := v.entry.isDirectory

def Store.listing (s : Store) : List Seed :=
  ((s.walk "/").filter (·.path != "/")).map Visit.seed

theorem Visit.sight_seed (v : Visit) : v.seed.sight = v.entry.sight := by
  obtain ⟨path, depth, name, pageSection, payload, parent⟩ := v
  cases payload <;> rfl

/-- A thing that has been made is not changed by the seed that makes it. -/
theorem Seed.remake_sight (seed : Seed) : seed.remake seed.sight = seed.sight := by
  cases h : seed.isDirectory <;> simp [remake, Seed.sight, h]

namespace View

variable {part whole : View} {seed : Seed} {p : List String} {sight : Sight}

/-- One view shows nothing but what another one does, where directories may be without
their sections yet. -/
def Outlines (part whole : View) : Prop :=
  ∀ p sight, part p = some sight → ∃ there, whole p = some there ∧
    (sight = there ∨ sight = .directory none ∧ there.isDirectory = true)

/-- A seed for something that a view shows, with nothing but directories on the way. -/
structure Shows (whole : View) (seed : Seed) : Prop where
  below_root : seed.trail ≠ []
  sight_eq : whole seed.trail = some seed.sight
  way : ∀ p, p <+: seed.trail.dropLast → (whole p).any Sight.isDirectory = true

theorem Outlines.takes (ho : part.Outlines whole) (hs : whole.Shows seed) :
    part.takes seed = true := by
  have hopen : part.isOpen seed.trail.dropLast = true := by
    refine isOpen_iff.mpr fun p hp sight hsight => ?_
    have hway := hs.way p hp
    obtain ⟨there, hthere, rfl | ⟨rfl, -⟩⟩ := ho p sight hsight
    · rwa [hthere] at hway
    · rfl
  simp [View.takes, hopen, hs.below_root]

theorem Outlines.sow_at (ho : part.Outlines whole) (hs : whole.Shows seed) :
    part.sow seed seed.trail = whole seed.trail := by
  rw [View.sow_at (ho.takes hs), hs.sight_eq]
  cases hpart : part seed.trail with
  | none => rfl
  | some sight =>
    obtain ⟨there, hthere, hsame⟩ := ho _ _ hpart
    rw [hs.sight_eq] at hthere
    cases hthere
    rcases hsame with rfl | ⟨rfl, hdir⟩
    · rw [Option.elim_some, Seed.remake_sight]
    · rw [Seed.isDirectory_sight] at hdir
      rw [Option.elim_some, Seed.remake_fresh hdir]

/-- What is right already stays so. -/
theorem Outlines.sow_of_eq (ho : part.Outlines whole) (hs : whole.Shows seed)
    (hp : part p = whole p) : part.sow seed p = whole p := by
  by_cases hne : p = seed.trail
  · rw [hne, ho.sow_at hs]
  · rw [View.sow_of_ne (ho.takes hs) hne]
    by_cases hway : p <+: seed.trail.dropLast
    · obtain ⟨sight, hsight, -⟩ := (Option.any_eq_true ..).mp (hs.way p hway)
      rw [pave_of_some (hp.trans hsight), hsight]
    · rw [pave_of_not hway, hp]

theorem Outlines.sow (ho : part.Outlines whole) (hs : whole.Shows seed) :
    (part.sow seed).Outlines whole := by
  intro p sight hsight
  by_cases hne : p = seed.trail
  · rw [hne, ho.sow_at hs] at hsight
    exact ⟨sight, hne ▸ hsight, .inl rfl⟩
  · rw [View.sow_of_ne (ho.takes hs) hne] at hsight
    cases hpart : part p with
    | some old =>
      rw [pave_of_some hpart] at hsight
      cases hsight
      exact ho p _ hpart
    | none =>
      -- What is new here is a directory on the way.
      rw [pave, hpart] at hsight
      split at hsight
      · next hway =>
        cases hsight
        obtain ⟨there, hthere, hdir⟩ := (Option.any_eq_true ..).mp (hs.way p hway)
        exact ⟨there, hthere, .inr ⟨rfl, hdir⟩⟩
      · cases hsight

/-- An outline is filled in by seeds for all that it lacks. -/
theorem foldl_sow_eq {seeds : List Seed} (ho : part.Outlines whole)
    (hshows : ∀ seed ∈ seeds, whole.Shows seed)
    (hall : ∀ p, (whole p).isSome = true → part p = whole p ∨ ∃ seed ∈ seeds, seed.trail = p) :
    seeds.foldl View.sow part = whole := by
  induction seeds generalizing part with
  | nil =>
    funext p
    cases hw : whole p with
    | some sight =>
      have hp := hall p (by rw [hw]; rfl)
      rw [hw] at hp
      simpa using hp
    | none =>
      rw [List.foldl_nil, Option.eq_none_iff_forall_ne_some]
      intro sight hsight
      obtain ⟨there, hthere, -⟩ := ho p sight hsight
      rw [hw] at hthere
      cases hthere
  | cons seed rest ih =>
    have hs := hshows seed List.mem_cons_self
    refine ih (ho.sow hs) (fun other hother => hshows other (List.mem_cons_of_mem _ hother))
      fun p hp => ?_
    rcases hall p hp with heq | ⟨other, hother, rfl⟩
    · exact .inl (ho.sow_of_eq hs heq)
    · rcases List.mem_cons.mp hother with rfl | hother
      · exact .inl (ho.sow_at hs)
      · exact .inr ⟨other, hother, rfl⟩

theorem foldl_sow_root {seeds : List Seed} {sight : Sight} (h : part [] = some sight) :
    seeds.foldl View.sow part [] = some sight := by
  induction seeds generalizing part with
  | nil => exact h
  | cons seed rest ih =>
    refine ih ?_
    cases ht : part.takes seed with
    | false => rw [sow_of_not ht, h]
    | true =>
      have hne : [] ≠ seed.trail := by
        rintro he
        rw [View.takes, ← he] at ht
        cases ht
      rw [View.sow_of_ne ht hne, pave_of_some h]

end View

namespace Store

variable {s : Store} {home : String} {names p : List String} {seed : Seed}

theorem sight?_bare (p : List String) :
    (bare home).sight? p = if p = [] then some (.directory none) else none := by
  cases p with
  | nil => rfl
  | cons name rest => rfl

/-- Nothing is in the way where a store has just been begun. -/
theorem createDir_bare (home : String) :
    ((bare (Path.normalize home)).createDir (Path.normalize home) true).1 = true := by
  have hbare := forest_bare (Path.normalize home)
  rw [hbare.createDir_done_iff, trail_of_isNormal (Path.isNormal_normalize home)]
  refine View.isOpen_iff.mpr fun p _ sight hsight => ?_
  rw [sight?_bare] at hsight
  split at hsight <;> cases hsight
  rfl

/-- In a store that has just been made there are the directories on the way to home. -/
theorem sight?_create (home : String) (p : List String) : (create home).sight? p =
    if p <+: Path.components (Path.normalize home) then some (.directory none) else none := by
  have hbare := forest_bare (Path.normalize home)
  have hpaved := hbare.sight?_createDir (createDir_bare home)
  rw [trail_of_isNormal (Path.isNormal_normalize home)] at hpaved
  have hslots : (create home).slots =
      ((bare (Path.normalize home)).createDir (Path.normalize home) true).2.slots := by
    unfold create
    dsimp only
    split <;> next hrun => rw [hrun]
  rw [sight?_congr hslots, hpaved, View.pave, sight?_bare]
  by_cases hp : p = []
  · simp [hp]
  · simp [hp]

theorem sight?_root_ofSeeds (seeds : List Seed) (home : String) :
    (ofSeeds seeds home).sight? [] = some (.directory none) := by
  obtain ⟨hsight, -, -⟩ := (settled_create home).foldl_plant_spec seeds
  rw [ofSeeds, hsight]
  refine View.foldl_sow_root ?_
  rw [sight?_create, if_pos List.nil_prefix]

theorem rebuild_slots (s : Store) (seeds : List Seed) (home : String) :
    (s.rebuild seeds home).slots = (ofSeeds seeds home).slots := by
  unfold rebuild
  dsimp only
  split <;> rfl

theorem Forest.not_file_root (h : s.Forest none) (content : String) (pageSection : Option String) :
    s.sight? [] ≠ some (.file content pageSection) := fun he => by
  have hroot : s.leadsToDirectory [] = true :=
    leadsToDirectory_iff.mpr ⟨root, rfl, h.root_directory⟩
  rw [leadsToDirectory, he] at hroot
  cases hroot

/-- The root is a directory without a section, whatever is done. -/
theorem Settled.sight?_root_perform (h : s.Settled) (hroot : s.sight? [] = some (.directory none))
    (change : Change) : (s.perform change).sight? [] = some (.directory none) := by
  have hnot (content : String) := (h.perform change).forest.not_file_root content none
  cases hdone : s.grants change with
  | false => rw [h.perform_refused hdone, hroot]
  | true =>
    cases change with
    | rebuild seeds home =>
      rw [Store.perform, sight?_congr (rebuild_slots s seeds home), sight?_root_ofSeeds]
    | changeDir input => rw [Store.perform, sight?_congr (changeDir_slots s input), hroot]
    | createDir input recursive =>
      rw [Store.perform, h.forest.sight?_createDir hdone, View.pave_of_some hroot]
    | createFile input content =>
      have hnot := hnot content
      rw [Store.perform, h.forest.sight?_createFile hdone] at hnot ⊢
      split at hnot
      · exact absurd rfl hnot
      · next hne => rw [if_neg hne, hroot]
    | writeFile input content mode =>
      have hnot := hnot content
      rw [Store.perform, h.forest.sight?_writeFile hdone, hroot] at hnot ⊢
      split at hnot
      · exact absurd rfl hnot
      · next hne => rw [if_neg hne]
    | remove input recursive =>
      have hne : s.trail input ≠ [] := fun he => by
        rw [grants, remove_root (resolve_eq_root_iff.mpr he)] at hdone
        cases hdone
      obtain ⟨node, hnode⟩ := Removal.isDone_iff.mp hdone
      have hleft := (h.forest.removesAt rfl hne recursive).left node hnode
      rw [Store.perform, hleft.elsewhere [] (mt List.prefix_nil.mp hne), hroot]
    | copy source destination =>
      obtain ⟨hcopyable, hcopied⟩ := h.forest.copy_spec (Eq.refl (s.trail source)) rfl
      rw [Store.perform, (hcopied hdone).elsewhere [] fun hpre =>
        (hcopyable.mp hdone).room.below_root (List.prefix_nil.mp hpre), hroot]
    | move source destination =>
      obtain ⟨hmovable, hmoved⟩ := h.forest.move_spec (Eq.refl (s.trail source)) rfl
      rw [Store.perform, (hmoved hdone).elsewhere []
        (fun hpre => (hmovable.mp hdone).source_below_root (List.prefix_nil.mp hpre))
        fun hpre => (hmovable.mp hdone).room.below_root (List.prefix_nil.mp hpre), hroot]

theorem sight?_root_run (origin : Origin) (changes : List Change) :
    (run origin changes).sight? [] = some (.directory none) := by
  have hstart : (Store.origin origin).sight? [] = some (.directory none) := by
    cases origin with
    | empty home => rw [Store.origin, sight?_create, if_pos List.nil_prefix]
    | seeded seeds home => rw [Store.origin, sight?_root_ofSeeds]
  have hsettled := settled_origin origin
  unfold run
  generalize Store.origin origin = start at hstart hsettled
  induction changes generalizing start with
  | nil => exact hstart
  | cons change rest ih =>
    exact ih _ (hsettled.sight?_root_perform hstart change) (hsettled.perform change)

namespace Forest

variable (h : s.Forest none)
include h

theorem proper_of_descend {i : Slot} (hd : s.descend root names = some i) :
    ∀ name ∈ names, Path.ProperName name := by
  induction names using List.reverseRecOn generalizing i with
  | nil => simp
  | append_singleton names name ih =>
    obtain ⟨d, hd, hparent, hname⟩ := h.descend_concat_iff.mp hd
    have hne : i ≠ root := by
      rintro rfl
      rw [h.root_top] at hparent
      cases hparent
    intro n hn
    rcases List.mem_append.mp hn with hn | hn
    · exact ih hd n hn
    · rw [List.mem_singleton.mp hn]
      exact h.proper hne hname

theorem components_of_sight? (hp : (s.sight? p).isSome = true) :
    Path.components (Path.normalize (p.foldl Path.join "/")) = p := by
  obtain ⟨i, hi⟩ := h.sight?_isSome_iff.mp hp
  have hproper := h.proper_of_descend hi
  rw [Path.normalize_of_isNormal (Path.isNormal_foldl_join hproper),
    Path.components_foldl_join hproper]

/-- A walk meets each thing at the path that its seed will be planted at. -/
theorem sight?_of_mem_walk {v : Visit} (hv : v ∈ s.walk "/") :
    v.path = v.seed.trail.foldl Path.join "/" ∧ s.sight? v.seed.trail = some v.entry.sight := by
  obtain ⟨names, hpath, -, hsight⟩ := h.mem_walk_iff.mp (List.mem_map_of_mem hv)
  have hpath : v.path = names.foldl Path.join "/" := hpath
  have htrail : v.seed.trail = names := by
    have hnames := h.components_of_sight? (p := names) (by rw [hsight]; rfl)
    rwa [← hpath] at hnames
  rw [htrail]
  exact ⟨hpath, hsight⟩

theorem shows_of_mem_listing (hseed : seed ∈ s.listing) : View.Shows s.sight? seed := by
  obtain ⟨v, hv, rfl⟩ := List.mem_map.mp hseed
  obtain ⟨hv, hne⟩ := List.mem_filter.mp hv
  obtain ⟨hpath, hsight⟩ := h.sight?_of_mem_walk hv
  have hbelow : v.seed.trail ≠ [] := fun he => by
    rw [he] at hpath
    rw [hpath] at hne
    cases hne
  refine ⟨hbelow, by rw [hsight, Visit.sight_seed], fun p hp => ?_⟩
  obtain ⟨i, hi⟩ := h.sight?_isSome_iff.mp (Option.isSome_iff_exists.mpr ⟨_, hsight⟩)
  rw [← List.dropLast_append_getLast hbelow] at hi
  exact directory_on_way h hi hp

theorem exists_mem_listing (hne : p ≠ []) (hp : (s.sight? p).isSome = true) :
    ∃ seed ∈ s.listing, seed.trail = p := by
  obtain ⟨sight, hsight⟩ := Option.isSome_iff_exists.mp hp
  have hmem := (h.mem_walk_iff (g := (p.foldl Path.join "/", p.length, sight))).mpr
    ⟨p, rfl, rfl, hsight⟩
  obtain ⟨v, hv, hglimpse⟩ := List.mem_map.mp hmem
  have hpath : v.path = p.foldl Path.join "/" := congrArg Prod.fst hglimpse
  have htrail : v.seed.trail = p := by
    have hcomponents := h.components_of_sight? hp
    rwa [← hpath] at hcomponents
  have hbelow : v.path ≠ "/" := fun he => hne (htrail.symm.trans (Seed.trail_eq_nil
    ((congrArg Path.normalize he).trans (Path.normalize_of_isNormal Path.spells_root.isNormal))))
  exact ⟨v.seed, List.mem_map_of_mem (List.mem_filter.mpr ⟨hv, by simpa using hbelow⟩), htrail⟩

end Forest

/-- A store's own listing, planted with the same home, makes all stand as it does. -/
theorem Settled.sight?_ofSeeds_listing (h : s.Settled) (hroot : s.sight? [] = some (.directory none))
    (hhome : s.hasDirectory s.home = true) : (ofSeeds s.listing s.home).sight? = s.sight? := by
  obtain ⟨hsight, -, -⟩ := (settled_create s.home).foldl_plant_spec s.listing
  rw [ofSeeds, hsight]
  refine View.foldl_sow_eq ?_ (fun seed => h.forest.shows_of_mem_listing) fun p hp => ?_
  · intro p sight hp
    rw [sight?_create, Path.normalize_of_isNormal h.home_normal] at hp
    split at hp
    · next hway =>
      cases hp
      rw [hasDirectory_eq] at hhome
      obtain ⟨there, hthere, hdir⟩ :=
        (Option.any_eq_true ..).mp (leadsToDirectory_on_way h.forest hhome hway)
      exact ⟨there, hthere, .inr ⟨rfl, hdir⟩⟩
    · cases hp
  · by_cases hne : p = []
    · left
      rw [hne, sight?_create, if_pos List.nil_prefix, hroot]
    · exact .inr (h.forest.exists_mem_listing hne hp)

/-- For every store that comes about and whose home is still a directory: what a walk shows
of it, without the root, makes a store again that a walk shows the same of. -/
theorem run_replant (origin : Origin) (changes : List Change)
    (hhome : (run origin changes).hasDirectory (run origin changes).home = true) :
    ((ofSeeds (run origin changes).listing (run origin changes).home).walk "/").map Visit.glimpse =
        ((run origin changes).walk "/").map Visit.glimpse ∧
      (ofSeeds (run origin changes).listing (run origin changes).home).count =
        (run origin changes).count := by
  have h := (settled_origin origin).foldl_perform changes
  have hsight := h.sight?_ofSeeds_listing (sight?_root_run origin changes) hhome
  exact walk_eq_of_sight?_eq (settled_ofSeeds _ _).forest h.forest fun names => congrFun hsight names

/-- A directory with a section and a file with an odd name have been moved home. -/
theorem run_replant_moved :
    ∃ s, run (.seeded [{ path := "/a b/~.", content := some "text" },
        { path := "/a b", pageSection := some "about", isDirectory := true }] "/home")
        [.move "/a b" "~"] = s ∧
      s.hasDirectory s.home = true ∧
      ((ofSeeds s.listing s.home).walk "/").map Visit.glimpse = (s.walk "/").map Visit.glimpse ∧
      (ofSeeds s.listing s.home).count = s.count := by
  have hhome : (run (.seeded [{ path := "/a b/~.", content := some "text" },
      { path := "/a b", pageSection := some "about", isDirectory := true }] "/home")
      [.move "/a b" "~"]).hasDirectory (run (.seeded [{ path := "/a b/~.", content := some "text" },
      { path := "/a b", pageSection := some "about", isDirectory := true }] "/home")
      [.move "/a b" "~"]).home = true := by decide +kernel
  exact ⟨_, rfl, hhome, run_replant (.seeded [{ path := "/a b/~.", content := some "text" },
    { path := "/a b", pageSection := some "about", isDirectory := true }] "/home")
    [.move "/a b" "~"] hhome⟩

end Store
end PocketTerminal.Files
