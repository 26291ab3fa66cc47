import PocketTerminal.Proofs.Files.Trees
import PocketTerminal.Proofs.Files.Walks
import PocketTerminal.Proofs.Shell.Refusals
import PocketTerminal.Shell.Commands.Browse

/-! # Drawings of trees

A tree is drawn from the depths along a walk alone: one pass from the end finds the entries that
are the last of their directories, and one from the start keeps what it found of the directories
above. The lines are those of the drawing by recursion on the tree that is walked, whatever its
shape, and neither pass looks behind the end of what it keeps. -/
namespace PocketTerminal

namespace Files

namespace Node

def entries : Node → List Node
  | file .. => []
  | directory _ _ entries => entries

mutual

/-- The lines of a tree that is the last of its brothers or is not, behind the rails of the
directories above it. -/
def drawn (rails : String) (last : Bool) : Node → List String
  | file name _ _ => [rails ++ (if last then "└── " else "├── ") ++ name]
  | directory name _ entries =>
    (rails ++ (if last then "└── " else "├── ") ++ name ++ "/") ::
      drawnAmong (rails ++ if last then "    " else "│   ") entries

def drawnAmong (rails : String) : List Node → List String
  | [] => []
  | node :: more => node.drawn rails more.isEmpty ++ drawnAmong rails more

end

mutual

def countBelow (test : Node → Bool) : Node → Nat
  | file .. => 0
  | directory _ _ entries => countAmong test entries

def countAmong (test : Node → Bool) : List Node → Nat
  | [] => 0
  | node :: more => (if test node then 1 else 0) + node.countBelow test + countAmong test more

end

def picture (title : String) (node : Node) : List String :=
  title :: drawnAmong "" node.entries ++
    ["", toString (node.countBelow isDirectory) ++ " directories, " ++
      toString (node.countBelow fun other => !other.isDirectory) ++ " files"]

theorem countBelow_eq (test : Node → Bool) (node : Node) :
    node.countBelow test = countAmong test node.entries := by
  cases node <;> simp [countBelow, entries, countAmong]

end Node

/-- The visits of some trees, one after the other, whose tops have one depth. -/
inductive Shows : Nat → List Node → List Visit → Prop
  | nil {depth : Nat} : Shows depth [] []
  | file {depth : Nat} {name content : String} {pageSection : Option String} {more : List Node}
      {visits : List Visit} {v : Visit} (hdepth : v.depth = depth) (hname : v.entry.name = name)
      (hkind : v.entry.isDirectory = false) (hmore : Shows depth more visits) :
      Shows depth (.file name pageSection content :: more) (v :: visits)
  | directory {depth : Nat} {name : String} {pageSection : Option String}
      {entries more : List Node} {below visits : List Visit} {v : Visit} (hdepth : v.depth = depth)
      (hname : v.entry.name = name) (hkind : v.entry.isDirectory = true)
      (hbelow : Shows (depth + 1) entries below) (hmore : Shows depth more visits) :
      Shows depth (.directory name pageSection entries :: more) (v :: (below ++ visits))

namespace Store

variable {s : Store} {start : Slot} {input : String} {node : Node}

theorem shows_visitsAt (s : Store) (n : Nat) (slots : List Slot) (path : Slot → String)
    (depth : Nat) : Shows depth (slots.filterMap (s.treeAt n))
      (slots.flatMap fun c => s.visitsAt n (path c) depth c) := by
  induction n generalizing slots path depth with
  | zero =>
    have htrees : slots.filterMap (s.treeAt 0) = [] := List.filterMap_eq_nil_iff.mpr fun _ _ => rfl
    have hvisits : (slots.flatMap fun c => s.visitsAt 0 (path c) depth c) = [] :=
      List.flatMap_eq_nil_iff.mpr fun _ _ => rfl
    rw [htrees, hvisits]
    exact .nil
  | succ n ih =>
    induction slots with
    | nil => exact .nil
    | cons c more ihmore =>
      rw [List.filterMap_cons, List.flatMap_cons]
      cases he : s.at? c with
      | none => simpa [treeAt, visitsAt, he] using ihmore
      | some e =>
        obtain ⟨name, pageSection, payload, parent⟩ := e
        simp only [treeAt, visitsAt, he, Option.map_some]
        cases payload with
        | text content => exact .file rfl rfl rfl ihmore
        | children slots => exact .directory rfl rfl rfl (ih slots _ (depth + 1)) ihmore

theorem shows_walk (hstart : s.lookup (s.resolve input) = some start)
    (hn : s.tree? start = some node) : Shows 0 [node] (s.walk input) := by
  have hshows := shows_visitsAt s s.slots.size [start] (fun _ => s.resolve input) 0
  rw [List.flatMap_singleton, ← walk_eq_visitsAt hstart] at hshows
  rw [tree?] at hn
  simpa [hn] using hshows

end Store

namespace Shows

variable {depth d : Nat} {nodes : List Node} {node : Node} {visits rest : List Visit}

theorem le_depth (h : Shows depth nodes visits) : ∀ v ∈ visits, depth ≤ v.depth := by
  induction h with
  | nil => simp
  | file hdepth _ _ _ ih =>
    refine List.forall_mem_cons.mpr ⟨Nat.le_of_eq hdepth.symm, ih⟩
  | directory hdepth _ _ _ _ ihbelow ih =>
    refine List.forall_mem_cons.mpr ⟨Nat.le_of_eq hdepth.symm, ?_⟩
    refine List.forall_mem_append.mpr ⟨?_, ih⟩
    intro v hv
    exact Nat.le_of_succ_le (ihbelow v hv)

/-- Behind some trees the walk goes on with another of their depth or further up. -/
theorem head_le (h : Shows depth nodes visits) (hrest : ∀ w ∈ rest.head?, w.depth < depth) :
    ∀ w ∈ (visits ++ rest).head?, w.depth ≤ depth := by
  cases h with
  | nil =>
    intro w hw
    exact Nat.le_of_lt (hrest w hw)
  | file hdepth =>
    rintro w ⟨⟩
    exact Nat.le_of_eq hdepth
  | directory hdepth =>
    rintro w ⟨⟩
    exact Nat.le_of_eq hdepth

theorem exists_cons (h : Shows depth [node] visits) :
    ∃ v below, visits = v :: below ∧ v.depth = depth ∧ Shows (depth + 1) node.entries below := by
  cases h with
  | file hdepth _ _ hmore =>
    cases hmore
    exact ⟨_, [], rfl, hdepth, .nil⟩
  | directory hdepth _ _ hbelow hmore =>
    cases hmore
    exact ⟨_, _, rfl, hdepth, (List.append_nil _).symm ▸ hbelow⟩

/-- The visits are as many as the nodes of either kind. -/
theorem counts (h : Shows depth nodes visits) :
    (visits.filter (·.entry.isDirectory)).length = Node.countAmong Node.isDirectory nodes ∧
      visits.length = Node.countAmong Node.isDirectory nodes +
        Node.countAmong (fun node => !node.isDirectory) nodes := by
  induction h with
  | nil => exact ⟨rfl, rfl⟩
  | file _ _ hkind _ ih =>
    simp only [List.filter_cons, hkind, List.length_cons, Node.countAmong, Node.countBelow,
      Node.isDirectory, ih.1, ih.2, Bool.false_eq_true, if_false, Bool.not_false, if_true]
    omega
  | directory _ _ hkind _ _ ihbelow ih =>
    simp only [List.filter_cons, hkind, List.length_cons, Node.countAmong, Node.countBelow,
      Node.isDirectory, if_true, List.filter_append, List.length_append, ihbelow.1, ihbelow.2, ih.1,
      ih.2, Bool.not_true, Bool.false_eq_true, if_false]
    omega

end Shows
end Files

namespace Shell.Browse

open Files (Change Node Origin Shows Store Visit)

variable {visits rest walk : List Visit} {nodes : List Node} {node : Node} {depth d : Nat} {v : Visit}
  {above stack : List Bool} {last : Bool}

/-- Whether another entry of the depth follows before the walk leaves the directory. -/
def goesOn (depth : Nat) (visits : List Visit) : Bool :=
  (visits.find? (·.depth ≤ depth)).any (·.depth = depth)

theorem goesOn_cons_deeper (h : depth < v.depth) : goesOn depth (v :: visits) = goesOn depth visits := by
  unfold goesOn
  rw [List.find?_cons_of_neg (by simpa using h)]

theorem goesOn_cons (h : v.depth ≤ depth) : goesOn depth (v :: visits) = decide (v.depth = depth) := by
  unfold goesOn
  rw [List.find?_cons_of_pos (by simpa using h), Option.any_some]

theorem goesOn_of_head (h : ∀ w ∈ visits.head?, w.depth < depth) : goesOn depth visits = false := by
  cases visits with
  | nil => rfl
  | cons w visits =>
    have hw : w.depth < depth := h w rfl
    rw [goesOn_cons (Nat.le_of_lt hw)]
    exact decide_eq_false (Nat.ne_of_lt hw)

theorem goesOn_append (h : ∀ w ∈ visits, depth < w.depth) :
    goesOn depth (visits ++ rest) = goesOn depth rest := by
  induction visits with
  | nil => rfl
  | cons w visits ih =>
    obtain ⟨hw, hvisits⟩ := List.forall_mem_cons.mp h
    rw [List.cons_append, goesOn_cons_deeper hw, ih hvisits]

/-- Behind some trees another one follows exactly where one is listed. -/
theorem goesOn_shows (h : Shows depth nodes visits) (hrest : ∀ w ∈ rest.head?, w.depth < depth) :
    goesOn depth (visits ++ rest) = !nodes.isEmpty := by
  cases h with
  | nil => exact goesOn_of_head hrest
  | file hdepth => exact (goesOn_cons (Nat.le_of_eq hdepth)).trans (decide_eq_true hdepth)
  | directory hdepth => exact (goesOn_cons (Nat.le_of_eq hdepth)).trans (decide_eq_true hdepth)

theorem getD_append_replicate (flags : List Bool) (n : Nat) :
    (flags ++ List.replicate n false)[d]?.getD false = flags[d]?.getD false := by
  rw [List.getElem?_append]
  split
  · rfl
  · next hd =>
    rw [List.getElem?_eq_none (Nat.not_lt.mp hd), List.getElem?_replicate]
    split <;> rfl

/-- What is kept for a depth is whether the walk goes on there. -/
theorem getD_lastFlags (visits : List Visit) (d : Nat) :
    (lastFlags visits).2[d]?.getD false = goesOn d visits := by
  induction visits with
  | nil => rfl
  | cons v rest ih =>
    have hlength : (((lastFlags rest).2 ++ List.replicate v.depth false).take v.depth).length =
        v.depth := by simp
    rw [lastFlags]
    rcases Nat.lt_trichotomy d v.depth with hlt | rfl | hlt
    · rw [List.getElem?_append_left (hlength.symm ▸ hlt), List.getElem?_take_of_lt hlt,
        getD_append_replicate, ih, goesOn_cons_deeper hlt]
    · rw [List.getElem?_append_right (Nat.le_of_eq hlength), hlength, Nat.sub_self,
        goesOn_cons (Nat.le_refl _), decide_eq_true rfl]
      rfl
    · rw [List.getElem?_eq_none, goesOn_cons (Nat.le_of_lt hlt), decide_eq_false (Nat.ne_of_lt hlt)]
      · rfl
      · rw [List.length_append, hlength]
        exact hlt

def flagged (visits : List Visit) : List (Visit × Bool) := visits.zip (lastFlags visits).1

theorem flagged_cons (v : Visit) (rest : List Visit) :
    flagged (v :: rest) = (v, !goesOn v.depth rest) :: flagged rest := by
  rw [← getD_lastFlags]
  rfl

def rails (above : List Bool) : String :=
  String.join (above.map fun done => if done then "    " else "│   ")

theorem rails_concat (above : List Bool) (last : Bool) :
    rails (above ++ [last]) = rails above ++ if last then "    " else "│   " := by
  simp [rails, String.join_append]

theorem treeLine_file {e : Files.Entry} (h : e.isDirectory = false) (above : List Bool) (last : Bool) :
    treeLine above last e = rails above ++ (if last then "└── " else "├── ") ++ e.name := by
  rw [treeLine, h, if_neg Bool.false_ne_true, String.append_empty]
  rfl

theorem treeLine_directory {e : Files.Entry} (h : e.isDirectory = true) (above : List Bool)
    (last : Bool) :
    treeLine above last e = rails above ++ (if last then "└── " else "├── ") ++ e.name ++ "/" := by
  rw [treeLine, h, if_pos rfl]
  rfl

/-- One step with the flags of exactly the directories above. -/
theorem treeLines_flagged_cons (hv : v.depth = above.length + 1)
    (hstack : stack.take above.length = above) (hlast : goesOn v.depth rest = !last) :
    treeLines stack (flagged (v :: rest)) =
      treeLine above last v.entry :: treeLines (above ++ [last]) (flagged rest) := by
  have hup : v.depth - 1 = above.length := by omega
  rw [flagged_cons, treeLines, hlast, Bool.not_not, hup, hstack]

/-- With the flags of the directories above, the lines of some trees are those drawn by recursion,
and behind them the flags of the directories above are still there. -/
theorem treeLines_append (h : Shows depth nodes visits) (hrest : ∀ w ∈ rest.head?, w.depth < depth)
    (hdepth : above.length + 1 = depth) (hstack : stack.take above.length = above) :
    ∃ left, left.take above.length = above ∧ treeLines stack (flagged (visits ++ rest)) =
      Node.drawnAmong (rails above) nodes ++ treeLines left (flagged rest) := by
  -- The flags that the pass leaves behind a subtree only matter up to the directories above.
  induction h generalizing rest above stack with
  | nil => exact ⟨stack, hstack, rfl⟩
  | @file depth name content pageSection more visits v hv hname hkind hmore ih =>
    have hlast : goesOn v.depth (visits ++ rest) = !more.isEmpty := hv ▸ goesOn_shows hmore hrest
    have hkept : (above ++ [more.isEmpty]).take above.length = above := List.take_left
    obtain ⟨left, hleft, hlines⟩ := ih hrest hdepth hkept
    refine ⟨left, hleft, ?_⟩
    rw [List.cons_append, treeLines_flagged_cons (hv.trans hdepth.symm) hstack hlast, hlines,
      treeLine_file hkind, hname]
    rfl
  | @directory depth name pageSection entries more below visits v hv hname hkind hbelow hmore
      ihbelow ih =>
    have hlast : goesOn v.depth (below ++ (visits ++ rest)) = !more.isEmpty := by
      rw [goesOn_append fun w hw => hv ▸ hbelow.le_depth w hw, hv]
      exact goesOn_shows hmore hrest
    -- What follows the entries is no deeper than the directory.
    have hbehind : ∀ w ∈ (visits ++ rest).head?, w.depth < depth + 1 := fun w hw =>
      Nat.lt_succ_of_le (hmore.head_le hrest w hw)
    have hkept : (above ++ [more.isEmpty]).take (above ++ [more.isEmpty]).length =
        above ++ [more.isEmpty] := List.take_length
    obtain ⟨inner, hinner, hentries⟩ := ihbelow hbehind (by simp [hdepth]) hkept
    have hinner' : inner.take above.length = above := by
      have htake := congrArg (List.take above.length) hinner
      rwa [List.take_take, List.take_left, Nat.min_eq_left (by simp)] at htake
    obtain ⟨left, hleft, hlines⟩ := ih hrest hdepth hinner'
    refine ⟨left, hleft, ?_⟩
    calc treeLines stack (flagged (v :: (below ++ visits) ++ rest))
        = treeLines stack (flagged (v :: (below ++ (visits ++ rest)))) := by
          rw [List.cons_append, List.append_assoc]
      _ = treeLine above more.isEmpty v.entry ::
            treeLines (above ++ [more.isEmpty]) (flagged (below ++ (visits ++ rest))) :=
          treeLines_flagged_cons (hv.trans hdepth.symm) hstack hlast
      _ = treeLine above more.isEmpty v.entry ::
            (Node.drawnAmong (rails (above ++ [more.isEmpty])) entries ++
              (Node.drawnAmong (rails above) more ++ treeLines left (flagged rest))) := by
          rw [hentries, hlines]
      _ = (Node.directory name pageSection entries).drawn (rails above) more.isEmpty ++
            Node.drawnAmong (rails above) more ++ treeLines left (flagged rest) := by
          rw [treeLine_directory hkind, hname, rails_concat, Node.drawn, List.cons_append,
            List.cons_append, List.append_assoc]

/-- A walk is drawn as the tree that it goes through. -/
theorem drawing_eq_picture (h : Shows 0 [node] walk) (title : String) :
    drawing title walk = node.picture title := by
  obtain ⟨v, below, rfl, -, hbelow⟩ := h.exists_cons
  have hend : ∀ w ∈ ([] : List Visit).head?, w.depth < 1 := by
    rintro w ⟨⟩
  have hstart : ([] : List Bool).take ([] : List Bool).length = [] := rfl
  obtain ⟨left, -, hlines⟩ := treeLines_append hbelow hend rfl hstart
  have hbranches : treeLines [] (flagged below) = Node.drawnAmong "" node.entries := by
    rw [List.append_nil] at hlines
    exact hlines.trans (List.append_nil _)
  obtain ⟨hdirs, hall⟩ := hbelow.counts
  have hfiles : below.length - Node.countAmong Node.isDirectory node.entries =
      Node.countAmong (fun other => !other.isDirectory) node.entries := by omega
  unfold drawing Node.picture
  rw [Node.countBelow_eq, Node.countBelow_eq, ← hfiles, ← hdirs, ← hbranches]
  rfl

/-- The pass from the end on a row of flags that is made to fit each depth, read and written. -/
def checkedFlags : List Visit → Option (List Bool × List Bool)
  | [] => some ([], [])
  | v :: rest => do
    let (flags, after) ← checkedFlags rest
    let fitted := (after ++ List.replicate (v.depth + 1) false).take (v.depth + 1)
    let follows ← fitted[v.depth]?
    if v.depth < fitted.length then some ((!follows) :: flags, fitted.set v.depth true) else none

/-- The pass from the start, with the flags read by their places and one taken off each depth. -/
def checkedLines (flags above : List Bool) : List (Visit × Nat) → Option (List String)
  | [] => some []
  | (v, i) :: rest => do
    let up ← if 1 ≤ v.depth then some (v.depth - 1) else none
    let last ← flags[i]?
    let lines ← checkedLines flags (above.take up ++ [last]) rest
    some (treeLine (above.take up) last v.entry :: lines)

def checkedDrawing (target : String) (walk : List Visit) : Option (List String) := do
  let passed ← checkedFlags walk
  let lines ← checkedLines passed.1 [] (walk.zipIdx.drop 1)
  let dirs := ((walk.drop 1).filter (·.entry.isDirectory)).length
  let files := ((walk.drop 1).filter fun v => !v.entry.isDirectory).length
  some (target :: lines ++ ["", toString dirs ++ " directories, " ++ toString files ++ " files"])

theorem take_append_replicate_succ (flags : List Bool) (n : Nat) :
    (flags ++ List.replicate (n + 1) false).take (n + 1) =
      (flags ++ List.replicate n false).take n ++ [flags[n]?.getD false] := by
  have hn : n < (flags ++ List.replicate (n + 1) false).length := by
    rw [List.length_append, List.length_replicate]
    omega
  have hat : (flags ++ List.replicate (n + 1) false)[n]? = some (flags[n]?.getD false) := by
    rw [← getD_append_replicate flags (n + 1), List.getElem?_eq_getElem hn, Option.getD_some]
  have hfront : (flags ++ List.replicate (n + 1) false).take n =
      (flags ++ List.replicate n false).take n := by
    rw [List.replicate_succ', ← List.append_assoc, List.take_append_of_le_length (by simp)]
  rw [List.take_add_one, hat, hfront]
  rfl

theorem checkedFlags_eq (visits : List Visit) : checkedFlags visits = some (lastFlags visits) := by
  induction visits with
  | nil => rfl
  | cons v rest ih =>
    rw [checkedFlags, ih, lastFlags]
    simp [take_append_replicate_succ]

theorem length_lastFlags (visits : List Visit) : (lastFlags visits).1.length = visits.length := by
  induction visits with
  | nil => rfl
  | cons v rest ih => exact congrArg (· + 1) ih

theorem checkedLines_eq (earlier flags above : List Bool) (hlength : visits.length = flags.length)
    (hdepth : ∀ v ∈ visits, 1 ≤ v.depth) :
    checkedLines (earlier ++ flags) above (visits.zipIdx earlier.length) =
      some (treeLines above (visits.zip flags)) := by
  induction visits generalizing earlier flags above with
  | nil => rfl
  | cons v rest ih =>
    obtain ⟨hv, hrest⟩ := List.forall_mem_cons.mp hdepth
    cases flags with
    | nil => cases hlength
    | cons last flags =>
      have ih := ih (earlier ++ [last]) flags (above.take (v.depth - 1) ++ [last])
        (Nat.succ_inj.mp hlength) hrest
      rw [List.append_assoc, List.singleton_append, List.length_append, List.length_singleton] at ih
      rw [List.zipIdx_cons, checkedLines, if_pos hv, List.zip_cons_cons, treeLines]
      simp [ih]

/-- On a walk no flag is missing, and no depth but the first is that of the start. -/
theorem checkedDrawing_eq_picture (h : Shows 0 [node] walk) (title : String) :
    checkedDrawing title walk = some (node.picture title) := by
  rw [← drawing_eq_picture h title]
  obtain ⟨v, below, rfl, -, hbelow⟩ := h.exists_cons
  have hlines : checkedLines (lastFlags (v :: below)).1 [] (below.zipIdx (0 + 1)) =
      some (treeLines [] (below.zip ((lastFlags (v :: below)).1.drop 1))) :=
    checkedLines_eq [!(lastFlags below).2[v.depth]?.getD false] (lastFlags below).1 []
      (length_lastFlags below).symm hbelow.le_depth
  have hfiles : (below.filter fun v => !v.entry.isDirectory).length =
      below.length - (below.filter (·.entry.isDirectory)).length := by
    rw [List.length_eq_length_filter_add (fun v : Visit => v.entry.isDirectory) (l := below)]
    omega
  unfold checkedDrawing drawing
  rw [checkedFlags_eq, List.zipIdx_cons, List.drop_one, List.tail_cons, Option.bind_eq_bind,
    Option.bind_some, List.drop_one, List.tail_cons, hfiles, hlines]
  rfl

/-- The number of directories and that of files, in words of 32 bits, with one entry more. -/
def countEntry (counts : UInt32 × UInt32) (v : Visit) : UInt32 × UInt32 :=
  if v.entry.isDirectory then (counts.1 + 1, counts.2) else (counts.1, counts.2 + 1)

theorem toNat_countEntry (counts : UInt32 × UInt32) (v : Visit)
    (h : counts.1.toNat + counts.2.toNat + 1 < UInt32.size) :
    (countEntry counts v).1.toNat = counts.1.toNat + (if v.entry.isDirectory then 1 else 0) ∧
      (countEntry counts v).2.toNat = counts.2.toNat + (if v.entry.isDirectory then 0 else 1) := by
  have hsize : UInt32.size = 4294967296 := rfl
  unfold countEntry
  split
  · refine ⟨?_, (Nat.add_zero _).symm⟩
    simp only [UInt32.toNat_add, UInt32.reduceToNat]
    omega
  · refine ⟨(Nat.add_zero _).symm, ?_⟩
    simp only [UInt32.toNat_add, UInt32.reduceToNat]
    omega

theorem toNat_foldl_countEntry (counts : UInt32 × UInt32) (below : List Visit)
    (h : counts.1.toNat + counts.2.toNat + below.length < UInt32.size) :
    (below.foldl countEntry counts).1.toNat =
        counts.1.toNat + (below.filter (·.entry.isDirectory)).length ∧
      (below.foldl countEntry counts).2.toNat =
        counts.2.toNat + (below.length - (below.filter (·.entry.isDirectory)).length) := by
  induction below generalizing counts with
  | nil => exact ⟨rfl, rfl⟩
  | cons v below ih =>
    rw [List.length_cons] at h
    have hle := List.length_filter_le (·.entry.isDirectory) below
    obtain ⟨hdirs, hfiles⟩ := toNat_countEntry counts v (by omega)
    cases hdir : v.entry.isDirectory with
    | true =>
      simp only [hdir, if_true] at hdirs hfiles
      obtain ⟨hdirs', hfiles'⟩ := ih (countEntry counts v) (by omega)
      simp only [List.foldl_cons, List.filter_cons, hdir, if_true, List.length_cons]
      omega
    | false =>
      simp only [hdir, Bool.false_eq_true, if_false] at hdirs hfiles
      obtain ⟨hdirs', hfiles'⟩ := ih (countEntry counts v) (by omega)
      simp only [List.foldl_cons, List.filter_cons, hdir, Bool.false_eq_true, if_false, List.length_cons]
      omega

/-- The last line says what comes of counting in words of 32 bits, where the entries below the start
are few enough for one. -/
theorem getLast?_drawing (title : String) (v : Visit) {below : List Visit}
    (h : below.length < UInt32.size) :
    (drawing title (v :: below)).getLast? =
      some (toString (below.foldl countEntry (0, 0)).1 ++ " directories, " ++
        toString (below.foldl countEntry (0, 0)).2 ++ " files") := by
  obtain ⟨hdirs, hfiles⟩ := toNat_foldl_countEntry (0, 0) below (by simpa using h)
  rw [UInt32.toNat_zero, Nat.zero_add] at hdirs hfiles
  have hshown (n : UInt32) : toString n = toString n.toNat := rfl
  unfold drawing
  rw [hshown, hshown, hdirs, hfiles]
  simp [List.getLast?_cons, List.getLast?_append]

theorem tree_run (args : List String) (env : Environment) :
    tree.run args env = (runTree args env, env) := rfl

theorem runTree_eq {args : List String} {env : Environment} {e : Files.Entry}
    (hentry : env.files.get? (args.head?.getD ".") = some e)
    (hshows : Shows 0 [node] (env.files.walk (args.head?.getD "."))) :
    runTree args env = .ok (.text (Text.unlines (node.picture (args.head?.getD ".")))) := by
  obtain ⟨rest, hwalk⟩ := Store.exists_walk_eq_cons hentry
  unfold runTree
  dsimp only
  rw [← drawing_eq_picture hshows, hwalk]
  rfl

/-- For every file system and every target that is there: `tree` draws the tree that stands at the
target, under the target as it was typed, and no bound is passed on the way. -/
theorem run_tree (origin : Origin) (changes : List Change) (env : Environment) (args : List String)
    (hfiles : env.files = Store.run origin changes)
    (hthere : (env.files.get? (args.head?.getD ".")).isSome = true) :
    ∃ node, env.files.StandsAt (env.files.trail (args.head?.getD ".")) node ∧
      checkedDrawing (args.head?.getD ".") (env.files.walk (args.head?.getD ".")) =
        some (node.picture (args.head?.getD ".")) ∧
      tree.run args env =
        (.ok (.text (Text.unlines (node.picture (args.head?.getD ".")))), env) := by
  have h : env.files.Forest none := hfiles ▸ Store.forest_run origin changes
  obtain ⟨e, hentry⟩ := Option.isSome_iff_exists.mp hthere
  obtain ⟨start, hstart, he⟩ := Option.bind_eq_some_iff.mp hentry
  obtain ⟨node, hn⟩ := Store.exists_tree? ⟨e, he⟩
  have hshows := Store.shows_walk hstart hn
  refine ⟨node, h.standsAt_tree? hstart hn, checkedDrawing_eq_picture hshows _, ?_⟩
  rw [tree_run, runTree_eq hentry hshows]

def attic : List Change :=
  [.createDir "/d/a/x" true, .createFile "/d/a/x/p" "", .createDir "/d/a/y" false,
    .createFile "/d/b" ""]

/-- The bar of a directory that goes on stands left of all that is below it. -/
theorem run_tree_attic :
    (Registry.freshEnvironment (Store.run (.empty "/") attic)).files = Store.run (.empty "/") attic ∧
      ((Store.run (.empty "/") attic).get? "/d").isSome = true ∧
      ∃ node, (Store.run (.empty "/") attic).StandsAt ((Store.run (.empty "/") attic).trail "/d") node ∧
        checkedDrawing "/d" ((Store.run (.empty "/") attic).walk "/d") = some (node.picture "/d") ∧
        Text.unlines (node.picture "/d") =
          "/d\n├── a/\n│   ├── x/\n│   │   └── p\n│   └── y/\n└── b\n\n3 directories, 2 files" := by
  have hfiles := Registry.freshEnvironment_files (Store.run (.empty "/") attic)
  have hthere : ((Store.run (.empty "/") attic).get? "/d").isSome = true := by decide +kernel
  have hrun : (tree.run ["/d"] (Registry.freshEnvironment (Store.run (.empty "/") attic))).1 =
      .ok (.text "/d\n├── a/\n│   ├── x/\n│   │   └── p\n│   └── y/\n└── b\n\n3 directories, 2 files") := by
    decide +kernel
  obtain ⟨node, hstands, hchecked, hreply⟩ := run_tree (.empty "/") attic
    (Registry.freshEnvironment (Store.run (.empty "/") attic)) ["/d"] hfiles hthere
  refine ⟨hfiles, hthere, node, hstands, hchecked, ?_⟩
  have hshown := hrun.symm.trans (congrArg Prod.fst hreply)
  simp only [Except.ok.injEq, Reply.text.injEq] at hshown
  exact hshown.symm

end Shell.Browse
end PocketTerminal
