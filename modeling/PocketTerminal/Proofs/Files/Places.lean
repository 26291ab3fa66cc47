import PocketTerminal.Proofs.Files.Removals

/-! # Where a change is seen

A change is made at the paths that its inputs lead to, and is seen on the way to them, at
them and below them, but nowhere else. So a copy and its source have nothing in common: what
is done to one of them is never seen in the other. -/
namespace PocketTerminal.Files.Store

variable {s t : Store} {a b p q S D : List String} {change : Change}

/-- The paths that a change is made at. At its source a copy only reads. -/
def places (s : Store) : Change → List (List String)
  | .rebuild _ _ => [[]]
  | .changeDir input => [s.trail input]
  | .createDir input _ => [s.trail input]
  | .createFile input _ => [s.trail input]
  | .writeFile input _ _ => [s.trail input]
  | .remove input _ => [s.trail input]
  | .copy _ destination => [s.trail destination]
  | .move source destination => [s.trail source, s.trail destination]

def Aside (a b : List String) : Prop := ¬ a <+: b ∧ ¬ b <+: a

theorem Aside.symm (h : Aside a b) : Aside b a := ⟨h.2, h.1⟩

theorem Aside.below (h : Aside a b) (ha : a <+: p) (hb : b <+: q) : Aside p q where
  left hpq := by
    rcases List.prefix_or_prefix_of_prefix (ha.trans hpq) hb with hab | hba
    · exact h.1 hab
    · exact h.2 hba
  right hqp := by
    rcases List.prefix_or_prefix_of_prefix ha (hb.trans hqp) with hab | hba
    · exact h.1 hab
    · exact h.2 hba

theorem prefix_landing (s : Store) (source destination : List String) :
    destination <+: s.landing source destination := by
  unfold landing
  split
  · exact List.prefix_append _ _
  · exact List.prefix_rfl

theorem changeDir_slots (s : Store) (input : String) : (s.changeDir input).2.slots = s.slots := by
  unfold changeDir
  dsimp only
  split <;> rfl

/-- Aside from the paths that it is made at, a change leaves what stands there. -/
theorem Settled.sight?_perform (h : s.Settled) (hp : ∀ place ∈ s.places change, Aside place p) :
    (s.perform change).sight? p = s.sight? p := by
  cases hdone : s.grants change with
  | false => rw [h.perform_refused hdone]
  | true =>
    cases change with
    | rebuild seeds home => 
      simp only [places, List.mem_singleton, forall_eq] at hp
      exact absurd List.nil_prefix hp.1
    | changeDir input => rw [Store.perform, sight?_congr (changeDir_slots s input)]
    | createDir input recursive =>
      simp only [places, List.mem_singleton, forall_eq] at hp
      rw [Store.perform, h.forest.sight?_createDir hdone, View.pave_of_not hp.2]
    | createFile input content =>
      simp only [places, List.mem_singleton, forall_eq] at hp
      rw [Store.perform, h.forest.sight?_createFile hdone, if_neg]
      exact fun he => hp.1 (he ▸ List.prefix_rfl)
    | writeFile input content mode =>
      simp only [places, List.mem_singleton, forall_eq] at hp
      rw [Store.perform, h.forest.sight?_writeFile hdone, if_neg]
      exact fun he => hp.1 (he ▸ List.prefix_rfl)
    | remove input recursive =>
      simp only [places, List.mem_singleton, forall_eq] at hp
      have hne : s.trail input ≠ [] := fun he => hp.1 (he ▸ List.nil_prefix)
      have hr := h.forest.removesAt rfl hne recursive
      obtain ⟨node, hnode⟩ := Removal.isDone_iff.mp hdone
      exact (hr.left node hnode).elsewhere p hp.1
    | copy source destination =>
      simp only [places, List.mem_singleton, forall_eq] at hp
      refine ((h.forest.copy_spec rfl rfl).2 hdone).elsewhere p fun hpre => hp.1 ?_
      exact (prefix_landing ..).trans hpre
    | move source destination =>
      simp only [places, List.mem_cons, List.not_mem_nil, or_false, forall_eq_or_imp,
        forall_eq] at hp
      obtain ⟨hfrom, hto⟩ := hp
      refine ((h.forest.move_spec rfl rfl).2 hdone).elsewhere p hfrom.1 fun hpre => hto.1 ?_
      exact (prefix_landing ..).trans hpre

/-- Whatever has been done, a change made at or below one path is not seen at or below another. -/
def Insulates (t : Store) (a b : List String) : Prop :=
  ∀ (later : List Change) (change : Change),
    (∀ place ∈ (later.foldl perform t).places change, a <+: place) →
    ∀ rest, ((later.foldl perform t).perform change).sight? (b ++ rest) =
      (later.foldl perform t).sight? (b ++ rest)

theorem Settled.insulates (h : t.Settled) (hab : Aside a b) : t.Insulates a b :=
  fun later _ hplaces rest => (h.foldl_perform later).sight?_perform fun place hplace =>
    hab.below (hplaces place hplace) (List.prefix_append b rest)

theorem Copyable.aside (hc : s.Copyable S D) (h : s.Forest none) : Aside D S := by
  obtain ⟨source, hS⟩ := h.sight?_isSome_iff.mp hc.exists_source
  exact ⟨hc.room.not_above h hS hc.apart, hc.room.not_below hc.apart⟩

/-- For every store that comes about, and whatever is typed: a copy is done exactly where the
source is there, below the root, and has room to land away from its own place, and puts all
that is at or below the source at the landing place too. Of what is done later to one of
them, nothing is seen in the other. -/
theorem run_copy (origin : Origin) (changes : List Change) {input destination : String}
    {source landing : List String} (hsource : (run origin changes).trail input = source)
    (hlanding : (run origin changes).landing source ((run origin changes).trail destination) =
      landing) :
    (((run origin changes).copy input destination).1 = true ↔
        (run origin changes).Copyable source landing) ∧
      (((run origin changes).copy input destination).1 = true →
        (run origin changes).Copied ((run origin changes).copy input destination).2 source landing
            ((run origin changes).walk input).length ∧
          ((run origin changes).copy input destination).2.Insulates landing source ∧
          ((run origin changes).copy input destination).2.Insulates source landing) := by
  have h := (settled_origin origin).foldl_perform changes
  obtain ⟨hcopyable, hcopied⟩ := h.forest.copy_spec hsource hlanding
  refine ⟨hcopyable, fun hdone => ⟨hcopied hdone, ?_⟩⟩
  have haside := (hcopyable.mp hdone).aside h.forest
  have ht := h.perform (.copy input destination)
  exact ⟨ht.insulates haside, ht.insulates haside.symm⟩

/-- A file takes the place of another one, in a directory that is named with `~`. -/
theorem run_copy_file :
    ∃ s, run (.empty "/home") [.createFile "a" "new", .createDir "c" false,
        .createFile "c/a" "old"] = s ∧
      s.trail "a" = ["home", "a"] ∧ s.landing ["home", "a"] (s.trail "~/c") = ["home", "c", "a"] ∧
      s.Copyable ["home", "a"] ["home", "c", "a"] ∧
      s.Copied (s.copy "a" "~/c").2 ["home", "a"] ["home", "c", "a"] (s.walk "a").length ∧
      (s.copy "a" "~/c").2.Insulates ["home", "c", "a"] ["home", "a"] := by
  have hsource : (run (.empty "/home") [.createFile "a" "new", .createDir "c" false,
      .createFile "c/a" "old"]).trail "a" = ["home", "a"] := by decide +kernel
  have hlanding : (run (.empty "/home") [.createFile "a" "new", .createDir "c" false,
      .createFile "c/a" "old"]).landing ["home", "a"] ((run (.empty "/home") [.createFile "a" "new",
      .createDir "c" false, .createFile "c/a" "old"]).trail "~/c") = ["home", "c", "a"] := by
    decide +kernel
  have hdone : ((run (.empty "/home") [.createFile "a" "new", .createDir "c" false,
      .createFile "c/a" "old"]).copy "a" "~/c").1 = true := by decide +kernel
  obtain ⟨hcopyable, hcopied⟩ := run_copy (.empty "/home") [.createFile "a" "new",
    .createDir "c" false, .createFile "c/a" "old"] hsource hlanding
  obtain ⟨hmeaning, hinsulates, -⟩ := hcopied hdone
  exact ⟨_, rfl, hsource, hlanding, hcopyable.mp hdone, hmeaning, hinsulates⟩

end PocketTerminal.Files.Store
