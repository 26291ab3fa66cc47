import PocketTerminal.Proofs.Files.Landings
import PocketTerminal.Proofs.Files.Refusals
import PocketTerminal.Proofs.Files.Trees

/-! # What stands where after something new

A new entry stands at the name that its directory gains, and all else stands where it stood.
From this one fact come directories made along a path, files made and written, and whole
trees put into a directory. -/
namespace PocketTerminal.Files

/-- What a file is once it has been written to, or made by the writing. -/
def WriteMode.written (mode : WriteMode) (content : String) : Option Sight → Sight
  | some (.file old pageSection) =>
    .file (if mode.append then old ++ content else content) pageSection
  | _ => .file content none

abbrev View := List String → Option Sight

namespace View

def isOpen (view : View) (path : List String) : Bool :=
  path.inits.all fun p => (view p).all Sight.isDirectory

def pave (view : View) (path : List String) : View := fun p =>
  if p <+: path then some ((view p).getD (.directory none)) else view p

variable {view : View} {a p : List String} {sight : Sight}

theorem isOpen_iff : view.isOpen a = true ↔
    ∀ p, p <+: a → ∀ sight, view p = some sight → sight.isDirectory = true := by
  simp [isOpen, Option.all_eq_true]

theorem pave_of_not (h : ¬ p <+: a) : view.pave a p = view p := if_neg h

theorem pave_of_some (h : view p = some sight) : view.pave a p = some sight := by
  unfold pave
  rw [h]
  split <;> rfl

end View

namespace Store

variable {s t u : Store} {i j d dir new : Slot} {name x : String} {a p q names : List String}
  {sight : Sight}

/-- One entry more, in a slot that was empty, and every other one with the name, the place
and the text that it had. -/
structure Inserted (s t : Store) (dir new : Slot) (name : String) (sight : Sight) : Prop where
  forest : t.Forest none
  was_empty : ¬ s.Live new
  parent?_eq : ∀ i, t.parent? i = if i = new then some dir else s.parent? i
  name?_eq : ∀ i, t.name? i = if i = new then some name else s.name? i
  sightAt?_eq : ∀ i, t.sightAt? i = if i = new then some sight else s.sightAt? i
  count_eq : t.count = s.count + 1
  cwd_eq : t.cwd = s.cwd
  home_eq : t.home = s.home

theorem count_alloc (h : s.Forest none) (e : Entry) : (s.alloc e).2.count = s.count + 1 := by
  have hperm := h.treeSlots_append_free_perm.length_eq
  rw [List.length_append, List.length_range] at hperm
  unfold alloc count
  split
  · next slot free hfree =>
    rw [hfree, List.length_cons] at hperm ⊢
    simp only [Array.size_setIfInBounds]
    have hroot := List.length_pos_of_mem ((h.mem_treeSlots_iff h.root_live).mpr (.refl root))
    omega
  · next hfree => simp [hfree]

@[simp] theorem count_link : (s.link dir i).count = s.count := by simp [count]

theorem sightAt?_alloc (h : s.Forest none) (e : Entry) :
    (s.alloc e).2.sightAt? i = if i = (s.alloc e).1 then some e.sight else s.sightAt? i := by
  rw [sightAt?, at?_alloc e h.free_lt]
  split <;> rfl

theorem inserted (pageSection : Option String) {payload : Payload} (h : s.Forest none)
    (hdir : s.isDirectory dir = true) (hfree : s.find? dir name = none)
    (hname : Path.ProperName name) (hleaf : payload.Leaf) :
    ∃ new t, s.insert dir name pageSection payload = (new, t) ∧
      s.Inserted t dir new name (Entry.sight ⟨name, pageSection, payload, none⟩) := by
  obtain ⟨new, t, hinsert, ht, hempty, -, hext⟩ := insert_spec pageSection h hdir hfree hname hleaf
  let e : Entry := { name := name, pageSection := pageSection, payload := payload }
  have hsteps : s.insert dir name pageSection payload =
      ((s.alloc e).1, (s.alloc e).2.link dir (s.alloc e).1) := rfl
  obtain ⟨hnew, hlinked⟩ := Prod.mk.inj (hsteps.symm.trans hinsert)
  have hne : dir ≠ new := fun he => hempty (he ▸ live_of_isDirectory hdir)
  have hat (j : Slot) := at?_alloc (j := j) e h.free_lt
  have hanew : (s.alloc e).2.at? new = some e := by rw [hat, if_pos hnew.symm]
  have hadir : (s.alloc e).2.isDirectory dir = true := by
    rwa [isDirectory, hat, if_neg (hnew ▸ hne)]
  have hlive : (s.alloc e).2.Live new := ⟨e, hanew⟩
  have hparents := parent?_link hadir hlive hne
  have hnames := name?_link hadir hlive hne
  subst hnew
  refine ⟨_, t, hinsert, ht, hempty, fun i => ?_, fun i => ?_, fun i => ?_, ?_, hext.cwd_eq,
    hext.home_eq⟩
  · rw [← hlinked, hparents]
    by_cases hi : i = (s.alloc e).1
    · rw [if_pos hi, if_pos hi]
    · rw [if_neg hi, if_neg hi, parent?, hat, if_neg hi]
      rfl
  · rw [← hlinked, hnames, name?, hat]
    split <;> rfl
  · rw [← hlinked, sightAt?_link, sightAt?_alloc h]
  · rw [← hlinked, count_link, count_alloc h]

namespace Inserted

variable (hin : s.Inserted t dir new name sight) (h : s.Forest none)
include hin h

omit h in
theorem ne_of_live (hi : s.Live i) : i ≠ new := fun he => hin.was_empty (he ▸ hi)

/-- Only the new name is found that was not found before. -/
theorem find?_eq (hfree : s.find? dir name = none) :
    t.find? d x = if d = dir ∧ x = name then some new else s.find? d x := by
  refine Option.ext fun c => ?_
  rw [hin.forest.find?_iff, hin.parent?_eq, hin.name?_eq]
  by_cases hc : c = new
  · have hnot : s.find? d x ≠ some new := fun hf =>
      hin.was_empty (h.live_of_mem_children (h.find?_eq_some_iff.mp hf).1)
    by_cases hd : d = dir ∧ x = name
    · simp [hc, hd]
    · rw [if_pos hc, if_pos hc, if_neg hd, hc]
      simp only [Option.some.injEq]
      refine iff_of_false (fun hboth => hd ⟨hboth.1.symm, hboth.2.symm⟩) hnot
  · rw [if_neg hc, if_neg hc, ← h.find?_iff]
    by_cases hd : d = dir ∧ x = name
    · rw [if_pos hd, hd.1, hd.2, hfree]
      simpa using Ne.symm hc
    · rw [if_neg hd]

/-- What is new has no entries yet. -/
theorem children_new (hdir : s.Live dir) : t.children new = [] := by
  refine List.eq_nil_iff_forall_not_mem.mpr fun i hi => ?_
  have hp := hin.forest.mem_children.mp hi
  rw [hin.parent?_eq] at hp
  split at hp
  · exact hin.ne_of_live hdir (Option.some.inj hp)
  · exact hin.was_empty (live_of_isDirectory (h.directory_of_parent hp))

theorem descend_eq (hfree : s.find? dir name = none) (hq : s.descend root q = some dir) :
    t.descend root p = if p = q ++ [name] then some new else s.descend root p := by
  have hnone : s.descend root (q ++ [name]) = none := by
    rw [descend_append, hq, Option.bind_some, hfree]
  induction p using List.reverseRecOn with
  | nil => simp [descend]
  | append_singleton r x ih =>
    have hfind (d : Slot) := hin.find?_eq h hfree (d := d) (x := x)
    rw [descend_append, ih]
    by_cases hr : r = q ++ [name]
    · -- What has just been made has nothing below it.
      have hne : new ≠ dir := fun he => by
        rw [he] at hin
        exact hin.was_empty (h.live_of_descend h.root_live hq)
      have hlong : r ++ [x] ≠ q ++ [name] := fun he => by
        have hlength := congrArg List.length he
        rw [hr] at hlength
        simp at hlength
      rw [if_pos hr, if_neg hlong, Option.bind_some, hfind, if_neg (fun hd => hne hd.1), hr,
        descend_append, hnone, Option.bind_none, find?,
        children_of_not_live (not_live_iff.mp hin.was_empty)]
      rfl
    · rw [if_neg hr]
      cases hd : s.descend root r with
      | none =>
        have hne : r ++ [x] ≠ q ++ [name] := fun he => by
          rw [(List.append_inj' he rfl).1, hq] at hd
          cases hd
        rw [if_neg hne, descend_append, hd]
        rfl
      | some d =>
        have hsame : d = dir ∧ x = name ↔ r ++ [x] = q ++ [name] := by
          constructor
          · rintro ⟨rfl, rfl⟩
            rw [h.descend_inj hd hq]
          · intro he
            obtain ⟨rfl, hx⟩ := List.append_inj' he rfl
            rw [hq] at hd
            exact ⟨(Option.some.inj hd).symm, List.singleton_injective hx⟩
        rw [Option.bind_some, hfind, descend_append, hd, Option.bind_some]
        simp only [hsame]

/-- What stands where once an entry is new. -/
theorem sight?_eq (hfree : s.find? dir name = none) (hq : s.descend root q = some dir) :
    t.sight? p = if p = q ++ [name] then some sight else s.sight? p := by
  have hdown := hin.descend_eq h hfree hq (p := p)
  by_cases hp : p = q ++ [name]
  · rw [if_pos hp] at hdown ⊢
    rw [sight?_of_descend hdown, hin.sightAt?_eq, if_pos rfl]
  · rw [if_neg hp] at hdown ⊢
    rw [sight?, sight?, hdown]
    cases hi : s.descend root p with
    | none => rfl
    | some i =>
      rw [Option.bind_some, Option.bind_some, hin.sightAt?_eq,
        if_neg (hin.ne_of_live (h.live_of_descend h.root_live hi))]

end Inserted

section Modify

variable {change : Entry → Entry} (hshape : ∀ e, s.at? i = some e → (change e).shape = e.shape)
include hshape

theorem descend_modify : (s.modify i change).descend j names = s.descend j names := by
  refine descend_congr fun d x => ?_
  have hchildren : (s.modify i change).children d = s.children d :=
    read_modify hshape (fun o => (o.map Entry.children).getD [])
      (fun e e' he => congrArg (·.2.2.2) he) d
  have hname (c : Slot) : (s.modify i change).name? c = s.name? c :=
    read_modify hshape (Option.map Entry.name)
      (fun e e' he => congrArg some (congrArg Prod.fst he)) c
  rw [find?, hchildren, find?]
  simp only [hname]

/-- What stands where once an entry is written to. -/
theorem sight?_modify {e : Entry} (h : s.Forest none) (ha : s.descend root a = some i)
    (he : s.at? i = some e) :
    (s.modify i change).sight? p = if p = a then some (change e).sight else s.sight? p := by
  rw [sight?, descend_modify hshape]
  by_cases hp : p = a
  · rw [if_pos hp, hp, ha, Option.bind_some, sightAt?, at?_modify, if_pos rfl, he]
    rfl
  · rw [if_neg hp, sight?]
    cases hj : s.descend root p with
    | none => rfl
    | some j =>
      have hne : j ≠ i := by
        rintro rfl
        exact hp (h.descend_inj hj ha)
      rw [Option.bind_some, Option.bind_some, sightAt?, at?_modify, if_neg hne]
      rfl

end Modify

theorem isSome_sight?_on_way (h : s.Forest none) (hd : s.descend root a = some i)
    (hp : p <+: a) : (s.sight? p).isSome = true :=
  h.sight?_isSome_iff.mpr (exists_descend_on_way hd hp)

/-- Below a path at which nothing stands, nothing does. -/
theorem sight?_eq_none_below (h : s.Forest none) (hp : s.sight? p = none) (hpq : p <+: q) :
    s.sight? q = none := by
  by_contra hq
  obtain ⟨i, hi⟩ := h.sight?_isSome_iff.mp (Option.isSome_iff_ne_none.mpr hq)
  have hsome := isSome_sight?_on_way h hi hpq
  rw [hp] at hsome
  cases hsome

/-- Where a path leads to an entry, all on the way are directories. -/
theorem directory_on_way (h : s.Forest none) (hd : s.descend root (a ++ x :: names) = some i)
    (hp : p <+: a) : s.leadsToDirectory p = true := by
  obtain ⟨rest, rfl⟩ := hp
  obtain ⟨y, more, hy⟩ : ∃ y more, rest ++ x :: names = y :: more := by cases rest <;> simp
  rw [List.append_assoc, hy, descend_trans] at hd
  obtain ⟨k, hk, hrest⟩ := Option.bind_eq_some_iff.mp hd
  obtain ⟨c, hc, -⟩ := Option.bind_eq_some_iff.mp hrest
  exact leadsToDirectory_iff.mpr ⟨k, hk, h.directory_of_parent (h.find?_iff.mp hc).1⟩

theorem leadsToDirectory_on_way (h : s.Forest none) (hd : s.leadsToDirectory a = true)
    (hp : p <+: a) : s.leadsToDirectory p = true := by
  obtain ⟨rest, rfl⟩ := hp
  cases rest with
  | nil => rwa [List.append_nil] at hd
  | cons x names =>
    obtain ⟨i, hi, -⟩ := leadsToDirectory_iff.mp hd
    exact directory_on_way h hi List.prefix_rfl

/-- The way along a path to a directory is open. -/
theorem isOpen_of_descend (h : s.Forest none) (hd : s.descend root a = some dir)
    (hdir : s.isDirectory dir = true) : View.isOpen s.sight? a = true := by
  refine View.isOpen_iff.mpr fun p hp sight hsight => ?_
  have hleads := leadsToDirectory_on_way h (leadsToDirectory_iff.mpr ⟨dir, hd, hdir⟩) hp
  rwa [leadsToDirectory, hsight] at hleads

theorem pave_sight?_of_descend (h : s.Forest none) (hd : s.descend root a = some i) :
    View.pave s.sight? a = s.sight? := by
  funext p
  by_cases hp : p <+: a
  · obtain ⟨sight, hsight⟩ := Option.isSome_iff_exists.mp (isSome_sight?_on_way h hd hp)
    rw [View.pave_of_some hsight, hsight]
  · exact View.pave_of_not hp

/-- A path that begins with a longer one passes a fresh directory at its end. -/
theorem pave_insert {q rest : List String} {view next : View} (hnone : view (q ++ [name]) = none)
    (hnext : ∀ p, next p = if p = q ++ [name] then some (.directory none) else view p) :
    next.pave (q ++ name :: rest) = view.pave (q ++ name :: rest) := by
  funext p
  by_cases hp : p = q ++ [name]
  · have hpre : p <+: q ++ name :: rest := ⟨rest, by simp [hp]⟩
    have hn := hnext p
    rw [if_pos hp] at hn
    rw [View.pave_of_some hn, View.pave, if_pos hpre, hp, hnone]
    rfl
  · have hn := hnext p
    rw [if_neg hp] at hn
    rw [View.pave, View.pave, hn]

/-- Directories made along a path stand at its missing names, and nothing else changes. -/
theorem createAlong_sight? {recursive : Bool} (h : s.Forest none) (hq : s.descend root q = some dir)
    (hdir : s.isDirectory dir = true) (hnames : ∀ n ∈ names, Path.ProperName n)
    (hdone : (createAlong recursive s dir names).1 = true) :
    (createAlong recursive s dir names).2.sight? = View.pave s.sight? (q ++ names) := by
  induction names generalizing s dir q with
  | nil =>
    rw [List.append_nil, pave_sight?_of_descend h hq]
    rfl
  | cons name rest ih =>
    have hrest : ∀ n ∈ rest, Path.ProperName n := fun n hn => hnames n (List.mem_cons_of_mem _ hn)
    have happend : q ++ name :: rest = (q ++ [name]) ++ rest := by simp
    unfold createAlong at hdone ⊢
    cases hf : s.find? dir name with
    | some slot =>
      have hslot : s.descend root (q ++ [name]) = some slot := by
        rw [descend_append, hq, Option.bind_some, hf]
      simp only [hf] at hdone ⊢
      split
      · next hno => simp [hno] at hdone
      · next hgo =>
        rw [if_neg hgo] at hdone
        simp only [Bool.or_eq_true, not_or, Bool.not_eq_true', Bool.not_eq_false] at hgo
        rw [happend]
        exact ih h hslot hgo.1 hrest hdone
    | none =>
      simp only [hf] at hdone ⊢
      split
      · next hno => simp [hno] at hdone
      · next hgo =>
        rw [if_neg hgo] at hdone
        obtain ⟨new, t, hinsert, hin⟩ :=
          inserted none h hdir hf (hnames name List.mem_cons_self) leaf_empty
        have hnew : t.descend root (q ++ [name]) = some new := by
          rw [hin.descend_eq h hf hq, if_pos rfl]
        have hnewdir : t.isDirectory new = true := by
          rw [← any_sightAt?, hin.sightAt?_eq, if_pos rfl]
          rfl
        have hnone : s.sight? (q ++ [name]) = none := by
          rw [h.sight?_eq_none_iff, descend_append, hq, Option.bind_some, hf]
        simp only [hinsert] at hdone ⊢
        rw [ih hin.forest hnew hnewdir hrest hdone, ← happend]
        exact pave_insert hnone fun p => hin.sight?_eq h hf hq

/-- Up to a directory all is there, and behind a free name in it nothing is. -/
theorem isOpen_of_free (h : s.Forest none) (hq : s.descend root q = some dir)
    (hdir : s.isDirectory dir = true) (hfree : s.find? dir name = none) :
    View.isOpen s.sight? (q ++ name :: names) = true := by
  have hnone : s.sight? (q ++ [name]) = none := by
    rw [h.sight?_eq_none_iff, descend_append, hq, Option.bind_some, hfree]
  refine View.isOpen_iff.mpr fun p hp sight hsight => ?_
  rcases List.prefix_or_prefix_of_prefix hp ⟨names, (by simp : q ++ [name] ++ names = _)⟩ with
    hshort | hlong
  · rcases List.prefix_concat_iff.mp hshort with rfl | hin
    · rw [hnone] at hsight
      cases hsight
    · exact View.isOpen_iff.mp (isOpen_of_descend h hq hdir) p hin sight hsight
  · rw [sight?_eq_none_below h hnone hlong] at hsight
    cases hsight

theorem not_isOpen_of_file (h : s.Forest none) (hq : s.descend root q = some i)
    (hfile : s.isDirectory i = false) (hp : q <+: p) : View.isOpen s.sight? p = false := by
  by_contra hopen
  rw [Bool.not_eq_false] at hopen
  obtain ⟨e, he⟩ := h.live_of_descend h.root_live hq
  have hsight := sight?_of_descend hq
  rw [sightAt?, he, Option.map_some] at hsight
  have hdirectory := View.isOpen_iff.mp hopen q hp _ hsight
  rw [Entry.isDirectory_sight] at hdirectory
  simp [isDirectory, he, hdirectory] at hfile

/-- Directories can be made along a path exactly where no file is in the way. -/
theorem createAlong_done_iff (h : s.Forest none) (hq : s.descend root q = some dir)
    (hdir : s.isDirectory dir = true) (hnames : ∀ n ∈ names, Path.ProperName n) :
    (createAlong true s dir names).1 = View.isOpen s.sight? (q ++ names) := by
  induction names generalizing s dir q with
  | nil =>
    rw [List.append_nil, isOpen_of_descend h hq hdir]
    rfl
  | cons name rest ih =>
    have hrest : ∀ n ∈ rest, Path.ProperName n := fun n hn => hnames n (List.mem_cons_of_mem _ hn)
    have happend : q ++ name :: rest = (q ++ [name]) ++ rest := by simp
    rw [createAlong]
    cases hf : s.find? dir name with
    | some slot =>
      have hslot : s.descend root (q ++ [name]) = some slot := by
        rw [descend_append, hq, Option.bind_some, hf]
      cases hd : s.isDirectory slot with
      | true =>
        simp only [hd, Bool.not_true, Bool.and_false, Bool.or_self, Bool.false_eq_true, if_false]
        rw [happend]
        exact ih h hslot hd hrest
      | false =>
        rw [happend, not_isOpen_of_file h hslot hd (List.prefix_append _ _)]
        simp [hd]
    | none =>
      obtain ⟨new, t, hinsert, ht, -, hat, -⟩ :=
        insert_spec none h hdir hf (hnames name List.mem_cons_self) leaf_empty
      simp only [Bool.not_true, Bool.and_false, Bool.false_eq_true, if_false, hinsert]
      rw [isOpen_of_free h hq hdir hf]
      exact createAlong_granted ht (isDirectory_iff.mpr ⟨_, hat, rfl⟩) (children_eq hat) hrest

theorem createDir_eq (s : Store) (input : String) (recursive : Bool) :
    s.createDir input recursive = createAlong recursive s root (s.trail input) := rfl

namespace Forest

theorem proper_of_mem_trail {input : String} (hn : name ∈ s.trail input) : Path.ProperName name :=
  Path.properName_of_mem_components (Path.isNormal_resolve ..) hn

theorem sight?_createDir (h : s.Forest none) {input : String} {recursive : Bool}
    (hdone : (s.createDir input recursive).1 = true) :
    (s.createDir input recursive).2.sight? = View.pave s.sight? (s.trail input) := by
  rw [createDir_eq] at hdone ⊢
  have hsight := createAlong_sight? (q := []) h rfl h.root_directory
    (fun _ => proper_of_mem_trail) hdone
  rwa [List.nil_append] at hsight

theorem createDir_done_iff (h : s.Forest none) (input : String) :
    (s.createDir input true).1 = View.isOpen s.sight? (s.trail input) := by
  have hdone := createAlong_done_iff (q := []) h rfl h.root_directory
    fun n (hn : n ∈ s.trail input) => proper_of_mem_trail hn
  rwa [List.nil_append, ← createDir_eq] at hdone

theorem sight?_createFile (h : s.Forest none) {input content : String}
    (hdone : (s.createFile input content).1 = true) :
    (s.createFile input content).2.sight? p =
      if p = s.trail input then some (.file content none) else s.sight? p := by
  have hnormal : Path.isNormal (s.resolve input) = true := Path.isNormal_resolve ..
  unfold createFile at hdone ⊢
  dsimp only at hdone ⊢
  split
  · next hno => simp [hno] at hdone
  · next hfree =>
    rw [if_neg hfree] at hdone
    simp only [Bool.or_eq_true, decide_eq_true_eq, not_or, Option.not_isSome_iff_eq_none] at hfree
    obtain ⟨hne, hnone⟩ := hfree
    split
    · next dir hdir =>
      simp only [hdir] at hdone
      split
      · next hd =>
        rw [lookup_eq_find? hnormal hne, hdir] at hnone
        obtain ⟨new, t, hinsert, hin⟩ := inserted none h hd hnone
          (Path.properName_fileName hnormal hne) (leaf_text content)
        rw [hinsert, hin.sight?_eq h hnone hdir, trail, Path.components_eq_parent_append hnormal hne]
        rfl
      · next hd =>
        rw [if_neg hd] at hdone
        cases hdone
    · next hno => simp [hno] at hdone

end Forest

theorem trail_of_isNormal {path : String} (h : Path.isNormal path = true) :
    s.trail path = Path.components path := by
  rw [trail, resolve, Path.resolve_of_isNormal _ _ h]

theorem trail_resolve (input : String) : s.trail (s.resolve input) = s.trail input :=
  trail_of_isNormal (Path.isNormal_resolve ..)

theorem Forest.sight?_writeFile (h : s.Forest none) {input content : String} {mode : WriteMode}
    (hdone : (s.writeFile input content mode).1 = true) :
    (s.writeFile input content mode).2.sight? p =
      if p = s.trail input then some (mode.written content (s.sight? p)) else s.sight? p := by
  unfold writeFile at hdone ⊢
  dsimp only at hdone ⊢
  cases hslot : s.lookup (s.resolve input) with
  | none =>
    simp only [hslot] at hdone ⊢
    split
    · next hcreate =>
      rw [if_pos hcreate] at hdone
      rw [h.sight?_createFile hdone, trail_resolve]
      refine if_ctx_congr Iff.rfl (fun hp => ?_) fun _ => rfl
      have hnone : s.sight? (s.trail input) = none := h.sight?_eq_none_iff.mpr hslot
      rw [hp, hnone]
      rfl
    · next hcreate =>
      rw [if_neg hcreate] at hdone
      cases hdone
  | some slot =>
    obtain ⟨e, he⟩ := h.live_of_lookup hslot
    obtain ⟨entryName, pageSection, payload, parent⟩ := e
    simp only [hslot, he, Option.bind_some] at hdone ⊢
    cases payload with
    | children slots => cases hdone
    | text old =>
      simp only [Entry.content?]
      rw [sight?_modify (fun e' he' => ?_) h hslot he]
      · refine if_ctx_congr Iff.rfl (fun hp => ?_) fun _ => rfl
        have hold : s.sight? (s.trail input) = s.sightAt? slot := sight?_of_descend hslot
        rw [hp, hold, sightAt?, he]
        rfl
      · rw [he] at he'
        cases he'
        rfl

end Store
end PocketTerminal.Files
