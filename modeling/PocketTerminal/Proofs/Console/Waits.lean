import PocketTerminal.Console.Run
import PocketTerminal.Proofs.Numbers.SinglePrecision

/-! # Time that passes

A wait is cut into frames, one after another, until no time is left. In single precision a frame can
be too short for what it is taken from: up to a limit every frame makes the time that is left
shorter, and behind it no frame does. So the limit says which waits end, and which texts of lines
are answered to their end. -/
namespace PocketTerminal.Console
open Single

variable {s t : Session} {left secs : Float32} {n : Nat}
variable {line : String} {lines printed : List String}

/-- The longest wait there is an end to: twelve days, three hours and some minutes. -/
def longest : Float32 := 1048576

theorem frameSecs_written : Written frameSecs 8947849 (-28) := by
  have hbits : bits frameSecs = 1023969417 := by decide +kernel
  have hcanonical : Canonical 8947849 (-28) := by constructor <;> decide
  refine hcanonical.written ?_ ?_ <;> rw [hbits] <;> decide

theorem longest_pos : 0 < longest := by decide +kernel

theorem bits_longest : (bits longest : Int) = place (2 ^ 23) (-28 + 25) := by decide +kernel

/-- Beyond the limit a frame changes nothing. -/
theorem sub_frameSecs_eq_self (h : longest < left) : left - frameSecs = left := by
  have hpos := pos_of_lt longest_pos h
  refine sub_eq_self_of_lt frameSecs_written hpos ?_
  rw [← bits_longest]
  exact_mod_cast (lt_iff_bits longest_pos hpos).mp h

/-- Up to the limit a frame leaves less time than there was. -/
theorem bits_sub_frameSecs_lt (hle : ¬longest < left) (h : 0 < left)
    (hrest : 0 < left - frameSecs) : bits (left - frameSecs) < bits left := by
  have hplace : (bits left : Int) ≤ place (2 ^ 23) (-28 + 25) := by
    rw [lt_iff_bits longest_pos h] at hle
    rw [← bits_longest]
    exact_mod_cast Nat.le_of_not_lt hle
  rcases pos_cases h with ⟨m, e, hleft⟩ | ⟨hbits, -⟩
  · refine bits_sub_lt hleft frameSecs_written (by decide) ?_ hrest
    rwa [hleft.place_eq]
  · rw [hbits] at hplace
    contradiction

theorem not_longest_lt_sub (hle : ¬longest < left) (h : 0 < left) :
    ¬longest < left - frameSecs := by
  intro hlt
  have hrest := pos_of_lt longest_pos hlt
  have hless := bits_sub_frameSecs_lt hle h hrest
  rw [lt_iff_bits longest_pos hrest] at hlt
  rw [lt_iff_bits longest_pos h] at hle
  omega

/-- A session in which time passes frame by frame as long as some is left: the ticks that it takes,
and the session in the end. -/
inductive Advances : Session → Float32 → Nat → Session → Prop
  | done (s : Session) {left : Float32} (h : ¬0 < left) : Advances s left 0 s
  | tick {s t : Session} {left : Float32} {n : Nat} (h : 0 < left)
      (hrest : Advances (s.tick (Clock.atMost frameSecs left)) (left - frameSecs) n t) :
      Advances s left (n + 1) t

theorem Advances.unique {n' : Nat} {t' : Session} (h : Advances s left n t)
    (h' : Advances s left n' t') : n = n' ∧ t = t' := by
  induction h generalizing n' with
  | done s hleft =>
    cases h' with
    | done => exact ⟨rfl, rfl⟩
    | tick hpos => contradiction
  | tick hpos _ ih =>
    cases h' with
    | done _ hleft => contradiction
    | tick _ hrest => exact (ih hrest).imp_left (congrArg Nat.succ)

/-- Where the loop ends, the time was not beyond the limit: what is behind the limit stays where it
is from tick to tick. -/
theorem Advances.not_longest_lt (h : Advances s left n t) : ¬longest < left := by
  induction h with
  | done s hleft => exact fun hlt => hleft (pos_of_lt longest_pos hlt)
  | tick _ _ ih => exact fun hlt => ih ((sub_frameSecs_eq_self hlt).symm ▸ hlt)

/-- Up to the limit there are slices, and the loop ends when it has ticked through them. -/
theorem exists_slicesFrom (s : Session) (found : List Float32) (hle : ¬longest < left) :
    ∃ slices : List Float32,
      Clock.slicesFrom frameSecs found left = some (slices.reverse ++ found) ∧
      Advances s left slices.length (slices.foldl Session.tick s) := by
  -- by the bits of what is left: they go down with every frame that leaves anything
  induction hn : bits left using Nat.strongRecOn generalizing s found left with
  | ind n ih =>
    rw [Clock.slicesFrom]
    by_cases h : 0 < left
    · rw [if_pos h]
      by_cases hrest : 0 < left - frameSecs
      · have hless := bits_sub_frameSecs_lt hle h hrest
        obtain ⟨slices, hslices, hadvances⟩ := ih _ (hn ▸ hless)
          (s.tick (Clock.atMost frameSecs left)) (Clock.atMost frameSecs left :: found)
          (not_longest_lt_sub hle h) rfl
        refine ⟨Clock.atMost frameSecs left :: slices, ?_, .tick h hadvances⟩
        rw [if_pos hrest]
        refine (dif_pos hless).trans ?_
        rw [hslices, List.reverse_cons, List.append_assoc]
        rfl
      · exact ⟨[Clock.atMost frameSecs left], if_neg hrest, .tick h (.done _ hrest)⟩
    · exact ⟨[], if_neg h, .done s h⟩

theorem slicesFrom_eq_none (found : List Float32) (h : longest < left) :
    Clock.slicesFrom frameSecs found left = none := by
  have hpos := pos_of_lt longest_pos h
  rw [Clock.slicesFrom, if_pos hpos]
  dsimp only
  rw [sub_frameSecs_eq_self h, if_pos hpos, dif_neg (Nat.lt_irrefl _)]

/-- Time passes just where the loop over the frames ends, and as it does. -/
theorem advance?_eq_some_iff : advance? s secs = some t ↔ ∃ n, Advances s secs n t := by
  by_cases hlong : longest < secs
  · rw [advance?, Clock.slices, slicesFrom_eq_none [] hlong]
    exact iff_of_false (by simp) fun ⟨n, h⟩ => h.not_longest_lt hlong
  · obtain ⟨slices, hslices, hadvances⟩ := exists_slicesFrom s [] hlong
    rw [List.append_nil] at hslices
    rw [advance?, Clock.slices, hslices, Option.map_some, Option.map_some, List.reverse_reverse,
      Option.some_inj]
    constructor
    · rintro rfl
      exact ⟨_, hadvances⟩
    · rintro ⟨n, h⟩
      exact (hadvances.unique h).2

theorem exists_advances_iff (s : Session) (secs : Float32) :
    (∃ n t, Advances s secs n t) ↔ ¬longest < secs := by
  constructor
  · rintro ⟨n, t, h⟩
    exact h.not_longest_lt
  · intro h
    obtain ⟨slices, -, hadvances⟩ := exists_slicesFrom s [] h
    exact ⟨_, _, hadvances⟩

inductive Handles (s : Session) (line : String) : Session → Prop
  | keys {tokens : List String} (h : Line.parse line = .keys tokens) :
      Handles s line (tokens.foldl Session.pressToken s)
  | wait {secs : Float32} {n : Nat} {t : Session} (h : Line.parse line = .wait secs)
      (hadvances : Advances s secs n t) : Handles s line t

theorem handle?_eq_some_iff : handle? s line = some t ↔ Handles s line t := by
  unfold handle?
  constructor
  · intro h
    split at h
    next tokens hkeys =>
      obtain rfl := Option.some_inj.mp h
      exact .keys hkeys
    next secs hwait =>
      obtain ⟨n, hadvances⟩ := advance?_eq_some_iff.mp h
      exact .wait hwait hadvances
  · rintro (hkeys | ⟨hwait, hadvances⟩)
    · rw [hkeys]
    · rw [hwait]
      exact advance?_eq_some_iff.mpr ⟨_, hadvances⟩

def Ends (line : String) : Prop := ∀ secs, Line.parse line = .wait secs → ¬longest < secs

theorem exists_handles_iff (s : Session) (line : String) : (∃ t, Handles s line t) ↔ Ends line := by
  constructor
  · rintro ⟨t, h⟩ secs hsecs
    cases h with
    | keys hkeys => exact absurd (hkeys.symm.trans hsecs) (by simp)
    | wait hwait hadvances =>
      obtain rfl := Line.wait.inj (hwait.symm.trans hsecs)
      exact hadvances.not_longest_lt
  · intro hends
    cases hparse : Line.parse line with
    | keys tokens => exact ⟨_, .keys hparse⟩
    | wait secs =>
      obtain ⟨n, t, hadvances⟩ := (exists_advances_iff s secs).mpr (hends secs hparse)
      exact ⟨t, .wait hparse hadvances⟩

/-- A session that answers lines until they end: all that it prints. -/
inductive Finishes : Session → List String → List String → Prop
  | nil (s : Session) : Finishes s [] []
  | cons {s t : Session} {line : String} {lines printed : List String}
      (h : Handles { s with visited := some [] } line t)
      (hrest : Finishes (screen t).2 lines printed) :
      Finishes s (line :: lines) (visits t ++ (screen t).1 ++ printed)

theorem Handles.respond?_eq (h : Handles { s with visited := some [] } line t) :
    respond? s line = some (visits t ++ (screen t).1, (screen t).2) := by
  unfold respond?
  rw [handle?_eq_some_iff.mpr h]
  rfl

theorem respondAll_cons {shown : List String} (h : respond? s line = some (shown, t)) :
    respondAll s (line :: lines) = shown ++ respondAll t lines := by
  conv_lhs => unfold respondAll
  rw [h]

theorem Finishes.respondAll_eq (h : Finishes s lines printed) : respondAll s lines = printed := by
  induction h with
  | nil s => rfl
  | cons h _ ih => rw [respondAll_cons h.respond?_eq, ih]

theorem exists_finishes_iff (s : Session) (lines : List String) :
    (∃ printed, Finishes s lines printed) ↔ ∀ line ∈ lines, Ends line := by
  induction lines generalizing s with
  | nil => exact iff_of_true ⟨_, .nil s⟩ (by simp)
  | cons line lines ih =>
    rw [List.forall_mem_cons]
    constructor
    · rintro ⟨_, _ | ⟨hhandles, hrest⟩⟩
      exact ⟨(exists_handles_iff _ line).mp ⟨_, hhandles⟩, (ih _).mp ⟨_, hrest⟩⟩
    · rintro ⟨hline, hlines⟩
      obtain ⟨t, hhandles⟩ := (exists_handles_iff { s with visited := some [] } line).mpr hline
      obtain ⟨printed, hrest⟩ := (ih (screen t).2).mpr hlines
      exact ⟨_, .cons hhandles hrest⟩

theorem not_exists_advances (h : longest < secs) : ¬∃ n t, Advances s secs n t :=
  fun hends => (exists_advances_iff s secs).mp hends h

theorem not_exists_finishes (hparse : Line.parse line = .wait secs) (h : longest < secs) :
    ¬∃ printed, Finishes s [line] printed :=
  fun hends => (exists_finishes_iff s [line]).mp hends line (by simp) secs hparse h

/-- A wait ends just where it is not beyond the limit, and lines are answered to their end just
where no line asks for a wait beyond it; then what is printed is the answer to every line. -/
theorem finishes_iff_waits_end (s : Session) :
    (∀ secs, (∃ n t, Advances s secs n t) ↔ ¬longest < secs) ∧
    ∀ lines,
      ((∃ printed, Finishes s lines printed) ↔
        ∀ line ∈ lines, ∀ secs, Line.parse line = .wait secs → ¬longest < secs) ∧
      ∀ printed, Finishes s lines printed → respondAll s lines = printed :=
  ⟨exists_advances_iff s, fun lines => ⟨exists_finishes_iff s lines, fun _ h => h.respondAll_eq⟩⟩

/-- Waits that never end can be asked for: an infinite one, and one of a finite time beyond the
limit. -/
theorem waits_without_end :
    (Line.parse "@wait inf" = .wait (Float32.ofBits 0x7F800000) ∧
      (¬∃ n t, Advances (begin Demo.config).2 (Float32.ofBits 0x7F800000) n t) ∧
      ¬∃ printed, Finishes (begin Demo.config).2 ["@wait inf"] printed) ∧
    Line.parse "@wait 2000000" = .wait (Float32.ofBits 0x49F42400) ∧
      (¬∃ n t, Advances (begin Demo.config).2 (Float32.ofBits 0x49F42400) n t) ∧
      ¬∃ printed, Finishes (begin Demo.config).2 ["@wait 2000000"] printed := by
  have hinfinite : longest < Float32.ofBits 0x7F800000 := by decide +kernel
  have hfinite : longest < Float32.ofBits 0x49F42400 := by decide +kernel
  exact ⟨⟨rfl, not_exists_advances hinfinite, not_exists_finishes rfl hinfinite⟩,
    rfl, not_exists_advances hfinite, not_exists_finishes rfl hfinite⟩

end PocketTerminal.Console
