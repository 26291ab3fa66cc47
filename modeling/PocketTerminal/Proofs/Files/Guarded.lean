import PocketTerminal.Proofs.Files.Building

/-! # Operations that stop at an empty slot

The operations once more, step by step, with a guard before each slot that is read,
changed or given back: where the slot holds no entry there is no answer, and neither is
there one where a climb over parents does not end. -/
namespace PocketTerminal.Files

namespace Guarded

def touch (s : Store) (slots : List Slot) : Option Unit :=
  if slots.all fun i => (s.at? i).isSome then some () else none

def isDirectory (s : Store) (slot : Slot) : Option Bool := do
  touch s [slot]
  pure (s.isDirectory slot)

def find? (s : Store) (dir : Slot) (name : String) : Option (Option Slot) := do
  touch s (dir :: s.children dir)
  pure (s.find? dir name)

def modify (s : Store) (slot : Slot) (change : Entry → Entry) : Option Store := do
  touch s [slot]
  pure (s.modify slot change)

def release (s : Store) (slot : Slot) : Option Store := do
  touch s [slot]
  pure (s.release slot)

def link (s : Store) (dir child : Slot) : Option Store := do
  touch s (child :: dir :: s.children dir)
  pure (s.link dir child)

def unlink (s : Store) (child : Slot) : Option Store := do
  touch s (child :: (s.parent? child).toList)
  pure (s.unlink child)

def insert (s : Store) (dir : Slot) (name : String) (pageSection : Option String)
    (payload : Payload) : Option (Slot × Store) := do
  let (slot, s) := s.alloc { name := name, pageSection := pageSection, payload := payload }
  pure (slot, ← link s dir slot)

def descend (s : Store) : Slot → List String → Option (Option Slot)
  | slot, [] => some (some slot)
  | slot, name :: rest => do
    match ← find? s slot name with
    | none => pure none
    | some child => descend s child rest

def lookup (s : Store) (path : String) : Option (Option Slot) :=
  descend s Store.root (Path.components path)

/-- The climb over parents, which has to end before its steps do. -/
def climbsTo (s : Store) (above : Slot) : Nat → Slot → Option Bool
  | 0, _ => none
  | n + 1, slot =>
    if slot = above then some true
    else do
      touch s [slot]
      match s.parent? slot with
      | none => pure false
      | some dir => climbsTo s above n dir

def isWithin (s : Store) (slot above : Slot) : Option Bool :=
  climbsTo s above (s.slots.size + 1) slot

def tree? (s : Store) (slot : Slot) : Option (Option Node) := do
  touch s (s.treeSlots slot)
  pure (s.tree? slot)

def detach (s : Store) (slot : Slot) : Option Store := do
  let unlinked ← unlink s slot
  (s.treeSlots slot).foldlM release unlinked

mutual

def attach (s : Store) (dir : Slot) : Node → Option Store
  | .file name pageSection content => do
    let (_, s) ← insert s dir name pageSection (.text content)
    pure s
  | .directory name pageSection entries => do
    let (slot, s) ← insert s dir name pageSection (.children [])
    attachAll s slot entries

def attachAll (s : Store) (dir : Slot) : List Node → Option Store
  | [] => some s
  | node :: rest => do
    let s ← attach s dir node
    attachAll s dir rest

end

def hasDirectory (s : Store) (path : String) : Option Bool := do
  match ← lookup s path with
  | none => pure false
  | some slot => isDirectory s slot

def changeDir (s : Store) (input : String) : Option (Bool × Store) := do
  let path := s.resolve input
  if ← hasDirectory s path then pure (true, { s with cwd := path }) else pure (false, s)

def repairCwd (s : Store) : Option Store := do
  if ← hasDirectory s s.cwd then pure s
  else
    let home ← hasDirectory s s.home
    pure { s with cwd := if home then s.home else "/" }

def createAlong (recursive : Bool) : Store → Slot → List String → Option (Bool × Store)
  | s, _, [] => some (true, s)
  | s, dir, name :: rest => do
    match ← find? s dir name with
    | some slot =>
      let directory ← isDirectory s slot
      if !directory || (rest.isEmpty && !recursive) then pure (false, s)
      else createAlong recursive s slot rest
    | none =>
      if !rest.isEmpty && !recursive then pure (false, s)
      else
        let (slot, s) ← insert s dir name none (.children [])
        createAlong recursive s slot rest

def createDir (s : Store) (input : String) (recursive : Bool) : Option (Bool × Store) :=
  createAlong recursive s Store.root (Path.components (s.resolve input))

def createFile (s : Store) (input content : String) : Option (Bool × Store) := do
  let path := s.resolve input
  if path = "/" then pure (false, s)
  else if (← lookup s path).isSome then pure (false, s)
  else
    match ← lookup s (Path.parent path) with
    | none => pure (false, s)
    | some dir =>
      if ← isDirectory s dir then
        let (_, s) ← insert s dir (Path.fileName path) none (.text content)
        pure (true, s)
      else pure (false, s)

def writeFile (s : Store) (input content : String) (mode : WriteMode) : Option (Bool × Store) := do
  let path := s.resolve input
  match ← lookup s path with
  | none => if mode.create then createFile s path content else pure (false, s)
  | some slot =>
    touch s [slot]
    match (s.at? slot).bind Entry.content? with
    | none => pure (false, s)
    | some old =>
      let text := if mode.append then old ++ content else content
      pure (true, ← modify s slot fun e => { e with payload := .text text })

def remove (s : Store) (input : String) (recursive : Bool) : Option (Removal × Store) := do
  let path := s.resolve input
  if path = "/" then pure (.protectedRoot, s)
  else
    match ← lookup s path with
    | none => pure (.notFound, s)
    | some slot =>
      touch s [slot]
      if !(s.children slot).isEmpty && !recursive then pure (.notEmpty, s)
      else
        match ← tree? s slot with
        | none => pure (.notFound, s)
        | some node => pure (.removed node, ← repairCwd (← detach s slot))

/-- The landing place for a path taken as the path of what lands. -/
def landingAs (s : Store) (path : String) : Option (Option (Slot × String)) := do
  match ← lookup s (Path.parent path) with
  | none => pure none
  | some dir =>
    let name := Path.fileName path
    pure (if (← isDirectory s dir) && name != "" then some (dir, name) else none)

def landing? (s : Store) (source : Slot) (path : String) : Option (Option (Slot × String)) := do
  match ← lookup s path with
  | none => landingAs s path
  | some dir =>
    if (← isDirectory s dir) && dir != source then
      touch s [source]
      pure ((s.name? source).map fun name => (dir, name))
    else landingAs s path

def clearLanding (s : Store) (source dir : Slot) (name : String) : Option (Bool × Store) := do
  if ← isWithin s dir source then pure (false, s)
  else
    match ← find? s dir name with
    | none => pure (true, s)
    | some there =>
      if there = source then pure (true, s)
      else if (← isDirectory s there) || (← isDirectory s source) then pure (false, s)
      else pure (true, ← detach s there)

def copy (s : Store) (source destination : String) : Option (Bool × Store) := do
  let path := s.resolve destination
  match ← lookup s (s.resolve source) with
  | none => pure (false, s)
  | some slot =>
    if slot = Store.root then pure (false, s)
    else
      match ← landing? s slot path with
      | none => pure (false, s)
      | some (dir, name) =>
        if (← find? s dir name) = some slot then pure (false, s)
        else
          match ← clearLanding s slot dir name with
          | (false, s) => pure (false, s)
          | (true, s) =>
            match ← tree? s slot with
            | none => pure (false, s)
            | some node => pure (true, ← attach s dir (node.rename name))

def move (s : Store) (source destination : String) : Option (Bool × Store) := do
  let path := s.resolve destination
  match ← lookup s (s.resolve source) with
  | none => pure (false, s)
  | some slot =>
    if slot = Store.root then pure (false, s)
    else
      match ← landing? s slot path with
      | none => pure (false, s)
      | some (dir, name) =>
        match ← clearLanding s slot dir name with
        | (false, s) => pure (false, s)
        | (true, s) =>
          let renamed ← modify (← unlink s slot) slot fun e => { e with name := name }
          pure (true, ← repairCwd (← link renamed dir slot))

def create (home : String) : Option Store := do
  let home := Path.normalize home
  match ← createDir (Store.bare home) home true with
  | (true, s) => pure { s with cwd := home }
  | (false, s) => pure s

def plant (s : Store) (seed : Seed) : Option Store := do
  let path := Path.normalize seed.path
  if path = "/" then pure s
  else
    match ← createDir s (Path.parent path) true with
    | (false, s) => pure s
    | (true, s) =>
      match ← lookup s (Path.parent path) with
      | none => pure s
      | some dir =>
        let name := Path.fileName path
        match ← find? s dir name with
        | some slot => modify s slot seed.update
        | none =>
          let (_, s) ← insert s dir name seed.pageSection seed.payload
          pure s

def ofSeeds (seeds : List Seed) (home : String) : Option Store := do
  seeds.foldlM plant (← create home)

def rebuild (s : Store) (seeds : List Seed) (home : String) : Option Store := do
  let fresh ← ofSeeds seeds home
  if ← hasDirectory fresh s.cwd then pure { fresh with cwd := s.cwd } else pure fresh

open Store (root Settled Forest Within Depth)

variable {s t : Store} {i dir child above : Slot} {name path : String} {n : Nat}
  {loose : Option Slot}

theorem touch_eq {slots : List Slot} (h : ∀ i ∈ slots, s.Live i) : touch s slots = some () := by
  refine if_pos (List.all_eq_true.mpr fun i hi => ?_)
  obtain ⟨e, he⟩ := h i hi
  simp [he]

theorem touch_one (h : s.Live i) : touch s [i] = some () :=
  touch_eq fun _ hj => List.mem_singleton.mp hj ▸ h

theorem isDirectory_eq (h : s.Live i) : isDirectory s i = some (s.isDirectory i) := by
  rw [isDirectory, touch_one h]
  rfl

theorem modify_eq (h : s.Live i) (change : Entry → Entry) :
    modify s i change = some (s.modify i change) := by
  rw [modify, touch_one h]
  rfl

theorem find?_eq (h : s.Forest loose) (hd : s.Live dir) (name : String) :
    find? s dir name = some (s.find? dir name) := by
  rw [find?, touch_eq]
  · rfl
  · intro i hi
    rcases List.mem_cons.mp hi with rfl | hi
    · exact hd
    · exact h.live_of_mem_children hi

theorem descend_eq (h : s.Forest loose) {names : List String} (hd : s.Live dir) :
    descend s dir names = some (s.descend dir names) := by
  induction names generalizing dir with
  | nil => rfl
  | cons name rest ih =>
    rw [descend, find?_eq h hd, Store.descend]
    cases hf : s.find? dir name with
    | none => rfl
    | some child => exact ih (h.live_of_mem_children (h.find?_eq_some_iff.mp hf).1)

theorem lookup_eq (h : s.Forest loose) (path : String) : lookup s path = some (s.lookup path) :=
  descend_eq h h.root_live

/-- A climb that may take more steps than the slot is deep ends. -/
theorem climbsTo_eq (h : s.Depth i n) {steps : Nat} (hle : n ≤ steps) :
    climbsTo s above (steps + 1) i = some (s.climbsTo above steps i) := by
  induction steps generalizing i n with
  | zero =>
    obtain rfl : n = 0 := by omega
    cases h with
    | top hl hp =>
      rw [climbsTo, Store.climbsTo, touch_one hl, hp]
      by_cases hi : i = above <;> simp [hi]
  | succ steps ih =>
    rw [climbsTo, Store.climbsTo, touch_one h.live]
    by_cases hi : i = above
    · simp [hi]
    · cases h with
      | top hl hp => simp [hi, hp]
      | step hp hd => simp [hi, hp, ih hd (by omega)]

theorem isWithin_eq (h : s.Forest loose) (hi : s.Live i) :
    isWithin s i above = some (s.isWithin i above) := by
  obtain ⟨n, hn⟩ := h.grounded hi
  exact climbsTo_eq hn hn.lt_size.le

theorem live_of_mem_treeSlots (h : s.Forest loose) (hi : s.Live i) :
    ∀ j ∈ s.treeSlots i, s.Live j :=
  fun _ hj => ((h.mem_treeSlots_iff hi).mp hj).live hi

theorem tree?_eq (h : s.Forest loose) (hi : s.Live i) : tree? s i = some (s.tree? i) := by
  rw [tree?, touch_eq (live_of_mem_treeSlots h hi)]
  rfl

theorem unlink_eq (h : s.Forest loose) (hl : s.Live child) :
    unlink s child = some (s.unlink child) := by
  rw [unlink, touch_eq]
  · rfl
  · intro i hi
    rcases List.mem_cons.mp hi with rfl | hi
    · exact hl
    · rw [Option.mem_toList] at hi
      exact Store.live_of_isDirectory (h.directory_of_parent hi)

/-- Live slots are given back without a slot given back twice. -/
theorem foldlM_release_eq {given : List Slot} (hnodup : given.Nodup) (hlive : ∀ i ∈ given, s.Live i) :
    given.foldlM release s = some (given.foldl Store.release s) := by
  induction given generalizing s with
  | nil => rfl
  | cons i rest ih =>
    obtain ⟨hi, hrest⟩ := List.nodup_cons.mp hnodup
    have hl : s.Live i := hlive i List.mem_cons_self
    have hnext : ∀ j ∈ rest, (s.release i).Live j := by
      intro j hj
      have hji : j ≠ i := fun he => hi (he ▸ hj)
      obtain ⟨e, he⟩ := hlive j (List.mem_cons_of_mem _ hj)
      exact ⟨e, by rw [Store.at?_release hl.lt_size, if_neg hji, he]⟩
    rw [List.foldlM_cons, release, touch_one hl]
    exact ih hrest hnext

theorem detach_eq (h : s.Forest none) (hl : s.Live child) (hne : child ≠ root) :
    detach s child = some (s.detach child) := by
  rw [detach, unlink_eq h hl]
  refine foldlM_release_eq (h.treeSlots_nodup hl) fun j hj => ?_
  exact (Store.live_unlink h hl hne j).mpr (live_of_mem_treeSlots h hl j hj)

theorem link_eq (h : s.Forest loose) (hd : s.Live dir) (hl : s.Live child) :
    link s dir child = some (s.link dir child) := by
  rw [link, touch_eq]
  · rfl
  · intro i hi
    rcases List.mem_cons.mp hi with rfl | hi
    · exact hl
    · rcases List.mem_cons.mp hi with rfl | hi
      · exact hd
      · exact h.live_of_mem_children hi

theorem insert_eq (h : s.Forest none) (hd : s.isDirectory dir = true) (hname : Path.ProperName name)
    (pageSection : Option String) {payload : Payload} (hleaf : payload.Leaf) :
    insert s dir name pageSection payload = some (s.insert dir name pageSection payload) := by
  let e : Entry := { name := name, pageSection := pageSection, payload := payload }
  have hf := h.alloc (e := e) rfl (hleaf.children_eq_nil (e := e)) hname
  obtain ⟨-, hnew, -⟩ := hf.loose_top rfl
  have hdir : (s.alloc e).2.Live dir := by
    obtain ⟨d, he⟩ := Store.live_of_isDirectory hd
    have hempty := Store.alloc_slot_empty h e
    have hne : dir ≠ (s.alloc e).1 := by
      intro hde
      rw [← hde, he] at hempty
      cases hempty
    exact ⟨d, by rw [Store.at?_alloc e h.free_lt, if_neg hne, he]⟩
  have hlink := link_eq hf hdir hnew
  change (link (s.alloc e).2 dir (s.alloc e).1).bind _ = _
  rw [hlink]
  rfl

mutual

theorem attach_eq (node : Node) {s : Store} {dir : Slot} (h : s.Forest none)
    (hdir : s.isDirectory dir = true) (hfree : s.find? dir node.name = none)
    (hname : Path.ProperName node.name) (htidy : node.Tidy) :
    attach s dir node = some (s.attach dir node) := by
  cases node with
  | file name pageSection content =>
    simp only [Node.name] at hname
    rw [attach, insert_eq h hdir hname pageSection (Store.leaf_text content), Store.attach]
    rfl
  | directory name pageSection entries =>
    simp only [Node.name] at hfree hname
    obtain ⟨new, t, hinsert, ht, hnew, hat, hext⟩ :=
      Store.insert_spec pageSection h hdir hfree hname Store.leaf_empty
    have hnewdir : t.isDirectory new = true := Store.isDirectory_iff.mpr ⟨_, hat, rfl⟩
    have hempty : t.children new = [] := Store.children_eq hat
    rw [attach, insert_eq h hdir hname pageSection Store.leaf_empty, Store.attach, hinsert]
    exact attachAll_eq entries ht hnewdir (by simp [hempty]) htidy

theorem attachAll_eq (nodes : List Node) {s : Store} {dir : Slot} (h : s.Forest none)
    (hdir : s.isDirectory dir = true)
    (hfree : ∀ i ∈ s.children dir, ∀ node ∈ nodes, s.name? i ≠ some node.name)
    (htidy : Node.AllTidy nodes) :
    attachAll s dir nodes = some (s.attachAll dir nodes) := by
  cases nodes with
  | nil => rfl
  | cons node rest =>
    obtain ⟨hname, hnode, hless, hrest⟩ := htidy
    have hfind : s.find? dir node.name = none :=
      Forest.find?_eq_none_iff.mpr fun i hi => hfree i hi node List.mem_cons_self
    obtain ⟨ht, hext⟩ := Store.attach_spec node h hdir hfind hname hnode
    rw [attachAll, attach_eq node h hdir hfind hname hnode, Store.attachAll]
    exact attachAll_eq rest ht hext.directory (hext.free_of_less h hless hfree) hrest

end

theorem hasDirectory_eq (h : s.Forest none) (path : String) :
    hasDirectory s path = some (s.hasDirectory path) := by
  rw [hasDirectory, lookup_eq h, Store.hasDirectory]
  cases hl : s.lookup path with
  | none => rfl
  | some slot => exact isDirectory_eq (h.live_of_lookup hl)

theorem repairCwd_eq (h : s.Forest none) : repairCwd s = some s.repairCwd := by
  rw [repairCwd, hasDirectory_eq h, hasDirectory_eq h, Store.repairCwd]
  cases s.hasDirectory s.cwd <;> rfl

theorem changeDir_eq (h : s.Forest none) (input : String) :
    changeDir s input = some (s.changeDir input) := by
  rw [changeDir, hasDirectory_eq h, Store.changeDir]
  cases s.hasDirectory (s.resolve input) <;> rfl

theorem createAlong_eq (recursive : Bool) {names : List String} (h : s.Forest none)
    (hdir : s.isDirectory dir = true) (hnames : ∀ n ∈ names, Path.ProperName n) :
    createAlong recursive s dir names = some (Store.createAlong recursive s dir names) := by
  induction names generalizing s dir with
  | nil => rfl
  | cons name rest ih =>
    have hrest : ∀ n ∈ rest, Path.ProperName n := fun n hn => hnames n (List.mem_cons_of_mem _ hn)
    rw [createAlong, find?_eq h (Store.live_of_isDirectory hdir), Store.createAlong]
    cases hf : s.find? dir name with
    | some slot =>
      have hl := h.live_of_mem_children (h.find?_eq_some_iff.mp hf).1
      simp only [Option.bind_eq_bind, Option.bind_some, isDirectory_eq hl]
      split
      · rfl
      · next hgo =>
        simp only [Bool.or_eq_true, not_or, Bool.not_eq_true', Bool.not_eq_false] at hgo
        exact ih h hgo.1 hrest
    | none =>
      have hname := hnames name List.mem_cons_self
      obtain ⟨new, t, hinsert, ht, -, hat, -⟩ :=
        Store.insert_spec none h hdir hf hname Store.leaf_empty
      simp only [Option.bind_eq_bind, Option.bind_some, insert_eq h hdir hname none Store.leaf_empty,
        hinsert]
      split
      · rfl
      · exact ih ht (Store.isDirectory_iff.mpr ⟨_, hat, rfl⟩) hrest

theorem createDir_eq (h : s.Forest none) (input : String) (recursive : Bool) :
    createDir s input recursive = some (s.createDir input recursive) :=
  createAlong_eq recursive h h.root_directory
    fun _ hn => Path.properName_of_mem_components (Path.isNormal_resolve s.cwd s.home input) hn

theorem createFile_eq (h : s.Forest none) (input content : String) :
    createFile s input content = some (s.createFile input content) := by
  have hnormal : Path.isNormal (s.resolve input) = true := Path.isNormal_resolve ..
  unfold createFile Store.createFile
  dsimp only
  rw [lookup_eq h, lookup_eq h]
  by_cases hroot : s.resolve input = "/"
  · simp [hroot]
  · cases hfound : s.lookup (s.resolve input) with
    | some slot => simp [hroot]
    | none =>
      cases hdir : s.lookup (Path.parent (s.resolve input)) with
      | none => simp [hroot]
      | some dir =>
        have hl := h.live_of_lookup hdir
        by_cases hd : s.isDirectory dir = true
        · have hname := Path.properName_fileName hnormal hroot
          simp [hroot, isDirectory_eq hl, hd, insert_eq h hd hname none (Store.leaf_text content)]
        · simp [hroot, isDirectory_eq hl, hd]

theorem writeFile_eq (h : s.Forest none) (input content : String) (mode : WriteMode) :
    writeFile s input content mode = some (s.writeFile input content mode) := by
  unfold writeFile Store.writeFile
  dsimp only
  rw [lookup_eq h]
  cases hfound : s.lookup (s.resolve input) with
  | none =>
    by_cases hmode : mode.create = true
    · simp [hmode, createFile_eq h]
    · simp [hmode]
  | some slot =>
    have hl := h.live_of_lookup hfound
    cases hold : (s.at? slot).bind Entry.content? with
    | none => simp [touch_one hl, hold]
    | some old => simp [touch_one hl, hold, modify_eq hl]

theorem remove_eq (h : s.Forest none) (input : String) (recursive : Bool) :
    remove s input recursive = some (s.remove input recursive) := by
  unfold remove Store.remove
  dsimp only
  rw [lookup_eq h]
  by_cases hroot : s.resolve input = "/"
  · simp [hroot]
  · cases hfound : s.lookup (s.resolve input) with
    | none => simp [hroot]
    | some slot =>
      have hl := h.live_of_lookup hfound
      have hne := h.ne_root_of_lookup (Path.isNormal_resolve ..) hroot hfound
      simp only [hroot, if_false, Option.bind_eq_bind, Option.bind_some, touch_one hl, tree?_eq h hl]
      split
      · rfl
      · cases s.tree? slot with
        | none => rfl
        | some node => simp [detach_eq h hl hne, repairCwd_eq (h.detach hl hne)]

theorem landingAs_eq (h : s.Forest none) {source : Slot}
    (hout : ((s.lookup path).filter fun slot => s.isDirectory slot && slot != source) = none) :
    landingAs s path = some (s.landing? source path) := by
  rw [landingAs, lookup_eq h, Store.landing?, hout]
  cases hdir : s.lookup (Path.parent path) with
  | none => rfl
  | some dir => simp [isDirectory_eq (h.live_of_lookup hdir)]

theorem landing?_eq (h : s.Forest none) {source : Slot} (hl : s.Live source) (path : String) :
    landing? s source path = some (s.landing? source path) := by
  rw [landing?, lookup_eq h]
  cases hthere : s.lookup path with
  | none =>
    simp only [Option.bind_eq_bind, Option.bind_some]
    exact landingAs_eq h (by rw [hthere, Option.filter_none])
  | some slot =>
    simp only [Option.bind_eq_bind, Option.bind_some, isDirectory_eq (h.live_of_lookup hthere)]
    cases hin : s.isDirectory slot && slot != source with
    | true =>
      rw [Store.landing?, hthere, Option.filter_some, if_pos hin]
      simp [touch_one hl]
    | false =>
      simp only [Bool.false_eq_true, if_false]
      exact landingAs_eq h (by rw [hthere, Option.filter_some, hin, if_neg Bool.false_ne_true])

theorem clearLanding_eq (h : s.Forest none) {source : Slot} (hl : s.Live source)
    (hdir : s.isDirectory dir = true) (name : String) :
    clearLanding s source dir name = some (s.clearLanding source dir name) := by
  unfold clearLanding Store.clearLanding
  rw [isWithin_eq h (Store.live_of_isDirectory hdir), find?_eq h (Store.live_of_isDirectory hdir)]
  by_cases hw : s.isWithin dir source = true
  · simp [hw]
  · cases hf : s.find? dir name with
    | none => simp [hw]
    | some there =>
      obtain ⟨hmem, -⟩ := h.find?_eq_some_iff.mp hf
      have hthere := h.live_of_mem_children hmem
      have hdetach := detach_eq h hthere (h.ne_root_of_mem_children hmem)
      by_cases he : there = source
      · simp [hw, he]
      · cases hfile : s.isDirectory there with
        | true => simp [hw, he, isDirectory_eq hthere, isDirectory_eq hl, hfile]
        | false =>
          cases hsource : s.isDirectory source with
          | true => simp [hw, he, isDirectory_eq hthere, isDirectory_eq hl, hfile, hsource]
          | false => simp [hw, he, isDirectory_eq hthere, isDirectory_eq hl, hfile, hsource, hdetach]

theorem copy_eq (h : s.Forest none) (input destination : String) :
    copy s input destination = some (s.copy input destination) := by
  unfold copy Store.copy
  dsimp only
  rw [lookup_eq h]
  cases hsource : s.lookup (s.resolve input) with
  | none => rfl
  | some slot =>
    have hl := h.live_of_lookup hsource
    by_cases hroot : slot = root
    · simp [hroot]
    · simp only [Option.bind_eq_bind, Option.bind_some, hroot, if_false, landing?_eq h hl]
      cases hland : s.landing? slot (s.resolve destination) with
      | none => rfl
      | some place =>
        obtain ⟨dir, name⟩ := place
        obtain ⟨hdir, hname⟩ := h.landing?_spec hroot (Path.isNormal_resolve ..) hland
        simp only [find?_eq h (Store.live_of_isDirectory hdir), Option.bind_some,
          clearLanding_eq h hl hdir]
        by_cases hself : s.find? dir name = some slot
        · simp [hself]
        · simp only [hself, if_false]
          rcases h.clearLanding_spec name hl hdir with hkept | ⟨t, hcleared, ht⟩
          · rw [hkept]
            rfl
          · rw [hcleared]
            simp only [Option.bind_some, tree?_eq ht.forest ht.source_live]
            cases hnode : t.tree? slot with
            | none => rfl
            | some node =>
              have hattach := attach_eq (node.rename name) ht.forest (ht.keeps.directory hdir)
                (ht.find?_rename_eq_none hself node) (by rwa [Node.name_rename])
                (Node.tidy_rename (ht.forest.tidy_of_treeAt hnode) name)
              simp [hattach]

theorem move_eq (h : s.Forest none) (input destination : String) :
    move s input destination = some (s.move input destination) := by
  unfold move Store.move
  dsimp only
  rw [lookup_eq h]
  cases hsource : s.lookup (s.resolve input) with
  | none => rfl
  | some slot =>
    have hl := h.live_of_lookup hsource
    by_cases hroot : slot = root
    · simp [hroot]
    · simp only [Option.bind_eq_bind, Option.bind_some, hroot, if_false, landing?_eq h hl]
      cases hland : s.landing? slot (s.resolve destination) with
      | none => rfl
      | some place =>
        obtain ⟨dir, name⟩ := place
        obtain ⟨hdir, hname⟩ := h.landing?_spec hroot (Path.isNormal_resolve ..) hland
        simp only [Option.bind_some, clearLanding_eq h hl hdir]
        rcases h.clearLanding_spec name hl hdir with hkept | ⟨t, hcleared, ht⟩
        · rw [hkept]
          rfl
        · rw [hcleared]
          have hunlinked := ht.forest.unlink ht.source_live hroot
          have hul := (Store.live_unlink ht.forest ht.source_live hroot slot).mpr ht.source_live
          have hud := (Store.live_unlink ht.forest ht.source_live hroot dir).mpr
            (Store.live_of_isDirectory (ht.keeps.directory hdir))
          have hlink := link_eq (hunlinked.rename slot name hname)
            ((Store.live_rename slot name dir).mpr hud) ((Store.live_rename slot name slot).mpr hul)
          simp [unlink_eq ht.forest ht.source_live, modify_eq hul, hlink,
            repairCwd_eq (ht.relocate hroot hdir hname)]

theorem create_eq (home : String) : create home = some (Store.create home) := by
  unfold create Store.create
  dsimp only
  rw [createDir_eq (Store.forest_bare _)]
  cases (Store.bare (Path.normalize home)).createDir (Path.normalize home) true with
  | mk done t => cases done <;> rfl

theorem plant_eq (h : s.Forest none) (seed : Seed) : plant s seed = some (s.plant seed) := by
  have hnormal := Path.isNormal_normalize seed.path
  unfold plant Store.plant
  dsimp only
  by_cases hne : Path.normalize seed.path = "/"
  · simp [hne]
  · obtain ⟨done, t, hrun, ht, -, -, -, hdone⟩ :=
      Store.createDir_spec h (Path.parent (Path.normalize seed.path)) true
    simp only [hne, if_false, createDir_eq h, hrun, Option.bind_eq_bind, Option.bind_some]
    cases done with
    | false => rfl
    | true =>
      have hd := hdone rfl rfl
      rw [Store.resolve, Path.resolve_of_isNormal _ _ (Path.isNormal_parent hnormal)] at hd
      obtain ⟨dir, hdir, hdirectory⟩ := Store.hasDirectory_iff.mp hd
      simp only [lookup_eq ht, hdir, Option.bind_some,
        find?_eq ht (Store.live_of_isDirectory hdirectory)]
      cases hf : t.find? dir (Path.fileName (Path.normalize seed.path)) with
      | some slot =>
        exact modify_eq (ht.live_of_mem_children (ht.find?_eq_some_iff.mp hf).1) seed.update
      | none =>
        simp [insert_eq ht hdirectory (Path.properName_fileName hnormal hne) seed.pageSection
          (Store.leaf_seed seed)]

theorem ofSeeds_eq (seeds : List Seed) (home : String) :
    ofSeeds seeds home = some (Store.ofSeeds seeds home) := by
  rw [ofSeeds, create_eq, Store.ofSeeds]
  have hstart := Store.settled_create home
  generalize Store.create home = start at hstart
  induction seeds generalizing start with
  | nil => rfl
  | cons seed rest ih =>
    have := ih (start.plant seed) (hstart.plant seed)
    simpa [plant_eq hstart.forest] using this

theorem rebuild_eq (s : Store) (seeds : List Seed) (home : String) :
    rebuild s seeds home = some (s.rebuild seeds home) := by
  rw [rebuild, ofSeeds_eq]
  simp only [Option.bind_eq_bind, Option.bind_some,
    hasDirectory_eq (Store.settled_ofSeeds seeds home).forest, Store.rebuild]
  cases (Store.ofSeeds seeds home).hasDirectory s.cwd <;> rfl

end Guarded
end PocketTerminal.Files
