import PocketTerminal.Color
import PocketTerminal.Proofs.Text.ByteOffsets
import PocketTerminal.Proofs.Text.HexDigits
import PocketTerminal.Proofs.Text.Pieces

/-! # The notation of colors

Which texts denote a color, and which one. The text that a color is written as is the only one of
its shape that denotes it. A reading that counts in bytes and cuts the text at fixed bytes never
cuts inside a character, because by then all characters are known to be digits. -/
namespace PocketTerminal.Color

open Text (cutByte? IsHexDigit hexRank hexDigits)

variable {s t : String} {digits : List Char} {c : Color} {x : UInt8} {m n : Nat}

/-- A text is made of digits behind any number of hashes, between blanks. -/
def Spells (text : String) (digits : List Char) : Prop :=
  ∃ before hashes behind, text.toList = before ++ (hashes ++ digits ++ behind) ∧
    (∀ c ∈ before, Text.isBlank c = true) ∧ (∀ c ∈ hashes, c = '#') ∧
    (∀ c ∈ digits, IsHexDigit c) ∧ ∀ c ∈ behind, Text.isBlank c = true

/-- What digits denote: two for each channel. Where there are none for alpha the color is full, and
each of three digits stands for two. -/
inductive Denotes : List Char → Color → Prop where
  | channels {r r' g g' b b' a a' : Char} {c : Color}
      (hr : c.r.toNat = 16 * hexRank r + hexRank r') (hg : c.g.toNat = 16 * hexRank g + hexRank g')
      (hb : c.b.toNat = 16 * hexRank b + hexRank b') (ha : c.a.toNat = 16 * hexRank a + hexRank a') :
      Denotes [r, r', g, g', b, b', a, a'] c
  | full {r r' g g' b b' : Char} {c : Color} (h : Denotes [r, r', g, g', b, b', 'f', 'f'] c) :
      Denotes [r, r', g, g', b, b'] c
  | doubled {r g b : Char} {c : Color} (h : Denotes [r, r, g, g, b, b] c) : Denotes [r, g, b] c

/-- One hash and digits in lower case, with digits for alpha only where the color is not full. -/
def Canonical (text : String) : Prop :=
  ∃ digits, text.toList = '#' :: digits ∧ (∀ d ∈ digits, d ∈ hexDigits) ∧
    (digits.length = 6 ∨ digits.length = 8 ∧ digits.drop 6 ≠ ['f', 'f'])

theorem not_isBlank_of_isHexDigit {d : Char} (h : IsHexDigit d) : Text.isBlank d = false := by
  have hall := Text.forall_isHexDigit (f := fun d => !Text.isBlank d) (by decide +kernel) h
  simpa using hall

theorem ne_hash_of_isHexDigit {d : Char} (h : IsHexDigit d) : d ≠ '#' := by
  rintro rfl
  revert h
  decide

theorem spells_iff : Spells s digits ↔ digitChars s = digits ∧ ∀ d ∈ digits, IsHexDigit d := by
  constructor
  · rintro ⟨before, hashes, behind, hs, hbefore, hhashes, hdigits, hbehind⟩
    have hkept : ∀ c ∈ hashes ++ digits, Text.isBlank c = false := by
      intro c hc
      rcases List.mem_append.mp hc with hc | hc
      · rw [hhashes c hc]
        decide
      · exact not_isBlank_of_isHexDigit (hdigits c hc)
    have hnone : digits.dropWhile (· == '#') = digits := by
      cases digits with
      | nil => rfl
      | cons d rest =>
        have hd := ne_hash_of_isHexDigit (hdigits d List.mem_cons_self)
        exact List.dropWhile_cons_of_neg (by simpa using hd)
    refine ⟨?_, hdigits⟩
    rw [digitChars, hs, Text.trimChars_between hbefore hkept hbehind, List.dropWhile_append_of_pos
      (fun c hc => beq_iff_eq.mpr (hhashes c hc)), hnone]
  · rintro ⟨rfl, hdigits⟩
    obtain ⟨before, behind, hs, hbefore, hbehind⟩ := Text.exists_trimChars s.toList
    refine ⟨before, (Text.trimChars s.toList).takeWhile (· == '#'), behind, ?_, hbefore,
      fun c hc => ?_, hdigits, hbehind⟩
    · rw [digitChars, List.takeWhile_append_dropWhile]
      exact hs
    · simpa using List.mem_takeWhile_imp hc

theorem toNat_channel (hm : m < 16) (hn : n < 16) : (channel m n).toNat = 16 * m + n := by
  rw [channel, Nat.toUInt8_eq, UInt8.toNat_ofNat']
  omega

theorem channel_eq_iff (hm : m < 16) (hn : n < 16) : channel m n = x ↔ x.toNat = 16 * m + n := by
  rw [← UInt8.toNat_inj, toNat_channel hm hn, eq_comm]

theorem exists_ofDigits?_iff (values : List Nat) : (∃ c, ofDigits? values = some c) ↔
    values.length = 3 ∨ values.length = 6 ∨ values.length = 8 := by
  rcases values with _ | ⟨_, _ | ⟨_, _ | ⟨_, _ | ⟨_, _ | ⟨_, _ | ⟨_, _ | ⟨_, _ | ⟨_, _ | _⟩⟩⟩⟩⟩⟩⟩⟩ <;>
    simp [ofDigits?]

theorem ofDigits?_channels_iff {r r' g g' b b' a a' : Char}
    (h : ∀ d ∈ [r, r', g, g', b, b', a, a'], IsHexDigit d) :
    ofDigits? ([r, r', g, g', b, b', a, a'].map hexRank) = some c ↔
      c.r.toNat = 16 * hexRank r + hexRank r' ∧ c.g.toNat = 16 * hexRank g + hexRank g' ∧
      c.b.toNat = 16 * hexRank b + hexRank b' ∧ c.a.toNat = 16 * hexRank a + hexRank a' := by
  simp only [List.forall_mem_cons, ← Text.hexRank_lt_iff] at h
  obtain ⟨hr, hr', hg, hg', hb, hb', ha, ha', -⟩ := h
  cases c
  simp only [List.map_cons, List.map_nil, ofDigits?, Option.some.injEq, Color.mk.injEq,
    channel_eq_iff, *]

theorem ofDigits?_of_denotes (h : Denotes digits c) (hdigits : ∀ d ∈ digits, IsHexDigit d) :
    ofDigits? (digits.map hexRank) = some c := by
  induction h with
  | channels hr hg hb ha => exact (ofDigits?_channels_iff hdigits).mpr ⟨hr, hg, hb, ha⟩
  | full _ ih =>
    have hlast : IsHexDigit 'f' := by decide
    simp only [List.forall_mem_cons] at hdigits ih
    exact ih ⟨hdigits.1, hdigits.2.1, hdigits.2.2.1, hdigits.2.2.2.1, hdigits.2.2.2.2.1,
      hdigits.2.2.2.2.2.1, hlast, hlast, hdigits.2.2.2.2.2.2⟩
  | doubled _ ih =>
    simp only [List.forall_mem_cons] at hdigits ih
    exact ih ⟨hdigits.1, hdigits.1, hdigits.2.1, hdigits.2.1, hdigits.2.2.1, hdigits.2.2.1,
      hdigits.2.2.2⟩

theorem mem_hexDigits_full : ∀ d ∈ ['f', 'f'], d ∈ hexDigits :=
  List.forall_mem_cons.mpr ⟨by decide, List.forall_mem_singleton.mpr (by decide)⟩

theorem denotes_of_ofDigits? (h : ofDigits? (digits.map hexRank) = some c)
    (hdigits : ∀ d ∈ digits, IsHexDigit d) : Denotes digits c := by
  have hfull : ∀ {r r' g g' b b' : Char}, (∀ d ∈ [r, r', g, g', b, b'], IsHexDigit d) →
      ofDigits? ([r, r', g, g', b, b'].map hexRank) = some c → Denotes [r, r', g, g', b, b'] c := by
    intro r r' g g' b b' hsix he
    have height : ∀ d ∈ [r, r', g, g', b, b', 'f', 'f'], IsHexDigit d := by
      have hlast : ∀ d ∈ ['f', 'f'], IsHexDigit d := fun d hd =>
        Text.isHexDigit_of_mem (mem_hexDigits_full d hd)
      exact List.forall_mem_append.mpr ⟨hsix, hlast⟩
    obtain ⟨hr, hg, hb, ha⟩ := (ofDigits?_channels_iff height).mp he
    exact .full (.channels hr hg hb ha)
  have hlength : digits.length = 3 ∨ digits.length = 6 ∨ digits.length = 8 := by
    have he := (exists_ofDigits?_iff _).mp ⟨c, h⟩
    rwa [List.length_map] at he
  match digits, hlength with
  | [r, g, b], _ =>
    refine .doubled (hfull (fun d hd => ?_) h)
    exact hdigits d (by simpa using hd)
  | [r, r', g, g', b, b'], _ => exact hfull hdigits h
  | [r, r', g, g', b, b', a, a'], _ =>
    obtain ⟨hr, hg, hb, ha⟩ := (ofDigits?_channels_iff hdigits).mp h
    exact .channels hr hg hb ha

theorem ofHex_eq_ok_iff :
    ofHex s = .ok c ↔ ((digitChars s).mapM Text.hexValue?).bind ofDigits? = some c := by
  unfold ofHex
  split
  · next color hcolor => rw [hcolor, Except.ok.injEq, Option.some.injEq]
  · next hnone => simp [hnone]

theorem ofHex_eq_ok_iff_denotes :
    ofHex s = .ok c ↔ ∃ digits, Spells s digits ∧ Denotes digits c := by
  rw [ofHex_eq_ok_iff, Option.bind_eq_some_iff]
  constructor
  · rintro ⟨values, hvalues, hcolor⟩
    obtain ⟨hdigits, rfl⟩ := Text.mapM_hexValue?_eq_some_iff.mp hvalues
    exact ⟨_, spells_iff.mpr ⟨rfl, hdigits⟩, denotes_of_ofDigits? hcolor hdigits⟩
  · rintro ⟨digits, hspells, hdenotes⟩
    obtain ⟨rfl, hdigits⟩ := spells_iff.mp hspells
    exact ⟨_, Text.mapM_hexValue?_eq_some_iff.mpr ⟨hdigits, rfl⟩,
      ofDigits?_of_denotes hdenotes hdigits⟩

theorem exists_ofHex_iff (s : String) : (∃ c, ofHex s = .ok c) ↔ ∃ digits, Spells s digits ∧
    (digits.length = 3 ∨ digits.length = 6 ∨ digits.length = 8) := by
  have hlength : ∀ digits : List Char, (∃ c, ofDigits? (digits.map hexRank) = some c) ↔
      digits.length = 3 ∨ digits.length = 6 ∨ digits.length = 8 := by
    intro digits
    rw [exists_ofDigits?_iff, List.length_map]
  constructor
  · rintro ⟨c, hc⟩
    obtain ⟨digits, hspells, hdenotes⟩ := ofHex_eq_ok_iff_denotes.mp hc
    have hcolor := ofDigits?_of_denotes hdenotes (spells_iff.mp hspells).2
    exact ⟨digits, hspells, (hlength digits).mp ⟨c, hcolor⟩⟩
  · rintro ⟨digits, hspells, hcount⟩
    obtain ⟨c, hcolor⟩ := (hlength digits).mpr hcount
    have hdenotes := denotes_of_ofDigits? hcolor (spells_iff.mp hspells).2
    exact ⟨c, ofHex_eq_ok_iff_denotes.mpr ⟨digits, hspells, hdenotes⟩⟩

/-- What is no color is refused with the text as it was given. -/
theorem ofHex_refused (h : ¬∃ c, ofHex s = .ok c) : ofHex s = .error (.badColor s) := by
  unfold ofHex at h ⊢
  split
  · next color hcolor => exact absurd ⟨color, by rw [hcolor]⟩ h
  · rfl

theorem mem_channelHex (x : UInt8) : ∀ d ∈ channelHex x, d ∈ hexDigits := by
  have hx := x.toNat_lt
  simp only [channelHex, List.forall_mem_cons]
  exact ⟨Text.hexDigit_mem (by omega), Text.hexDigit_mem (by omega), by simp⟩

/-- The digits that a channel is written as denote it, and no others in lower case do. -/
theorem channelHex_eq_iff {d d' : Char} (hd : d ∈ hexDigits) (hd' : d' ∈ hexDigits) :
    channelHex x = [d, d'] ↔ x.toNat = 16 * hexRank d + hexRank d' := by
  have hx := x.toNat_lt
  have hrank := Text.hexRank_lt_iff.mpr (Text.isHexDigit_of_mem hd)
  have hrank' := Text.hexRank_lt_iff.mpr (Text.isHexDigit_of_mem hd')
  constructor
  · intro h
    simp only [channelHex, List.cons.injEq, and_true] at h
    obtain ⟨rfl, rfl⟩ := h
    rw [Text.hexRank_hexDigit (by omega), Text.hexRank_hexDigit (by omega)]
    omega
  · intro h
    have hhigh : x.toNat / 16 = hexRank d := by omega
    have hlow : x.toNat % 16 = hexRank d' := by omega
    rw [channelHex, hhigh, hlow, Text.hexDigit_hexRank hd, Text.hexDigit_hexRank hd']

theorem channelHex_full : channelHex 255 = ['f', 'f'] := rfl

def digitsOf (c : Color) : List Char :=
  channelHex c.r ++ channelHex c.g ++ channelHex c.b ++ if c.a = 255 then [] else channelHex c.a

theorem toList_toHex (c : Color) : c.toHex.toList = '#' :: digitsOf c := by
  rw [toHex, String.toList_ofList]
  rfl

theorem mem_digitsOf (c : Color) : ∀ d ∈ digitsOf c, d ∈ hexDigits := by
  intro d hd
  simp only [digitsOf, List.mem_append] at hd
  rcases hd with ((hd | hd) | hd) | hd
  · exact mem_channelHex c.r d hd
  · exact mem_channelHex c.g d hd
  · exact mem_channelHex c.b d hd
  · split at hd
    · cases hd
    · exact mem_channelHex c.a d hd

theorem spells_of_toList (hs : s.toList = '#' :: digits) (hdigits : ∀ d ∈ digits, d ∈ hexDigits) :
    Spells s digits := by
  refine ⟨[], ['#'], [], ?_, by simp, by simp,
    fun d hd => Text.isHexDigit_of_mem (hdigits d hd), by simp⟩
  rw [hs]
  simp

theorem denotes_iff_channelHex {r r' g g' b b' a a' : Char}
    (h : ∀ d ∈ [r, r', g, g', b, b', a, a'], d ∈ hexDigits) :
    Denotes [r, r', g, g', b, b', a, a'] c ↔ channelHex c.r = [r, r'] ∧ channelHex c.g = [g, g'] ∧
      channelHex c.b = [b, b'] ∧ channelHex c.a = [a, a'] := by
  have hdigits : ∀ d ∈ [r, r', g, g', b, b', a, a'], IsHexDigit d :=
    fun d hd => Text.isHexDigit_of_mem (h d hd)
  have hdenotes : Denotes [r, r', g, g', b, b', a, a'] c ↔
      ofDigits? ([r, r', g, g', b, b', a, a'].map hexRank) = some c :=
    ⟨fun he => ofDigits?_of_denotes he hdigits, fun he => denotes_of_ofDigits? he hdigits⟩
  simp only [List.forall_mem_cons] at h
  obtain ⟨hr, hr', hg, hg', hb, hb', ha, ha', -⟩ := h
  rw [hdenotes, ofDigits?_channels_iff hdigits, channelHex_eq_iff hr hr', channelHex_eq_iff hg hg',
    channelHex_eq_iff hb hb', channelHex_eq_iff ha ha']

theorem channelHex_eq_full_iff : channelHex x = ['f', 'f'] ↔ x = 255 := by
  rw [channelHex_eq_iff (by decide) (by decide), ← UInt8.toNat_inj]
  rfl

/-- Digits in lower case denote a color just where they are the digits of it, those for alpha left
out where the color is full. -/
theorem denotes_iff_of_lower (hdigits : ∀ d ∈ digits, d ∈ hexDigits)
    (hlength : digits.length = 6 ∨ digits.length = 8 ∧ digits.drop 6 ≠ ['f', 'f']) :
    Denotes digits c ↔ digitsOf c = digits := by
  match digits, hlength with
  | [r, r', g, g', b, b'], _ =>
    have hfull : Denotes [r, r', g, g', b, b'] c ↔ Denotes [r, r', g, g', b, b', 'f', 'f'] c :=
      ⟨fun | .full h => h, .full⟩
    rw [hfull, denotes_iff_channelHex (List.forall_mem_append.mpr ⟨hdigits, mem_hexDigits_full⟩),
      channelHex_eq_full_iff]
    by_cases ha : c.a = 255
    · simp [digitsOf, channelHex, ha, and_assoc]
    · simp [digitsOf, channelHex, ha]
  | [r, r', g, g', b, b', a, a'], hlength =>
    have hlast : ['f', 'f'] ≠ [a, a'] := (hlength.resolve_left (by simp)).2.symm
    rw [denotes_iff_channelHex hdigits]
    by_cases ha : c.a = 255
    · simp [digitsOf, ha, channelHex_full, hlast]
      simp [channelHex]
    · simp [digitsOf, channelHex, ha, and_assoc]

theorem canonical_toHex (c : Color) : Canonical c.toHex := by
  refine ⟨digitsOf c, toList_toHex c, mem_digitsOf c, ?_⟩
  by_cases ha : c.a = 255
  · exact .inl (by simp [digitsOf, channelHex, ha])
  · refine .inr ⟨by simp [digitsOf, channelHex, ha], fun he => ha (channelHex_eq_full_iff.mp ?_)⟩
    simpa [digitsOf, channelHex, ha] using he

/-- Of the texts of canonical shape, just the one that a color is written as denotes it. -/
theorem ofHex_canonical_iff (ht : Canonical t) : ofHex t = .ok c ↔ t = toHex c := by
  obtain ⟨digits, hlist, hdigits, hlength⟩ := ht
  have hspells := spells_of_toList hlist hdigits
  have hwritten : t = toHex c ↔ digitsOf c = digits := by
    rw [← String.toList_inj, hlist, toList_toHex, List.cons_inj_right, eq_comm]
  rw [hwritten, ← denotes_iff_of_lower hdigits hlength, ofHex_eq_ok_iff_denotes]
  constructor
  · rintro ⟨digits', hspells', hdenotes⟩
    rwa [← (spells_iff.mp hspells).1, (spells_iff.mp hspells').1]
  · exact fun h => ⟨digits, hspells, h⟩

theorem ofHex_toHex (c : Color) : ofHex c.toHex = .ok c :=
  (ofHex_canonical_iff (canonical_toHex c)).mpr rfl

def slice? (first last : Nat) (cs : List Char) : Option (List Char) :=
  (cutByte? last cs).bind fun p => (cutByte? first p.1).map Prod.snd

def byte? (cs : List Char) : Option UInt8 :=
  let numerals := Text.unsignedDigits cs
  if numerals.isEmpty then none
  else
    (numerals.mapM Text.hexValue?).bind fun values =>
      let n := values.foldl (fun n v => n * 16 + v) 0
      if n < 256 then some n.toUInt8 else none

def doubled? (x : UInt8) : Option UInt8 := if x.toNat * 17 < 256 then some (x * 17) else none

/-- The color that characters of so many bytes denote, none within where they denote none. There is
no answer where the characters would be cut at a wrong byte, or a number would overflow, or there
would be more or fewer of three channels. -/
def colorOfBytes? (cs : List Char) : Nat → Option (Option Color)
  | 3 =>
    match cs.mapM fun c => byte? [c] with
    | none => some none
    | some [r, g, b] => do
      let r ← doubled? r
      let g ← doubled? g
      let b ← doubled? b
      some (some (rgb r g b))
    | some _ => none
  | 6 => do
    let r ← slice? 0 2 cs
    let g ← slice? 2 4 cs
    let b ← slice? 4 6 cs
    some do some (rgb (← byte? r) (← byte? g) (← byte? b))
  | 8 => do
    let r ← slice? 0 2 cs
    let g ← slice? 2 4 cs
    let b ← slice? 4 6 cs
    let a ← slice? 6 8 cs
    some do some ⟨← byte? r, ← byte? g, ← byte? b, ← byte? a⟩
  | _ => some none

/-- A text read by its bytes once all its characters are known to be digits. -/
def readBytes? (text : String) : Option (Except Fault Color) :=
  let cs := digitChars text
  if cs.all fun c => (Text.hexValue? c).isSome then
    (colorOfBytes? cs (String.ofList cs).utf8ByteSize).map fun
      | some color => .ok color
      | none => .error (.badColor text)
  else some (.error (.badColor text))

theorem utf8Size_of_isHexDigit {d : Char} (h : IsHexDigit d) : d.utf8Size = 1 :=
  Text.utf8Size_of_lt (Text.toNat_lt_of_isHexDigit h)

theorem utf8ByteSize_digits (h : ∀ d ∈ digits, IsHexDigit d) :
    (String.ofList digits).utf8ByteSize = digits.length := by
  induction digits with
  | nil => rfl
  | cons d digits ih =>
    obtain ⟨hd, hdigits⟩ := List.forall_mem_cons.mp h
    rw [Text.utf8ByteSize_ofList_cons, utf8Size_of_isHexDigit hd, ih hdigits, List.length_cons,
      Nat.add_comm]

theorem byte?_of_digits {d : Char} (hdigits : ∀ c ∈ d :: digits, IsHexDigit c)
    (hvalue : ((d :: digits).map hexRank).foldl (fun n v => n * 16 + v) 0 = n) (hn : n < 256) :
    byte? (d :: digits) = some n.toUInt8 := by
  have hplus : d ≠ '+' := by
    rintro rfl
    exact absurd (hdigits '+' List.mem_cons_self) (by decide)
  have hsigned : Text.unsignedDigits (d :: digits) = d :: digits := by
    unfold Text.unsignedDigits
    split
    · next he => exact absurd (List.cons.inj he).1 hplus
    · rfl
  have hvalues : (d :: digits).mapM Text.hexValue? = some ((d :: digits).map hexRank) :=
    Text.mapM_hexValue?_eq_some_iff.mpr ⟨hdigits, rfl⟩
  rw [byte?, hsigned, hvalues]
  simp only [List.isEmpty_cons, Bool.false_eq_true, if_false, Option.bind_some, hvalue, if_pos hn]

theorem byte?_pair {d d' : Char} (hd : IsHexDigit d) (hd' : IsHexDigit d') :
    byte? [d, d'] = some (channel (hexRank d) (hexRank d')) := by
  have hlt := Text.hexRank_lt_iff.mpr hd
  have hlt' := Text.hexRank_lt_iff.mpr hd'
  exact byte?_of_digits (by simp [hd, hd']) (by simp) (by omega)

theorem byte?_singleton {d : Char} (hd : IsHexDigit d) : byte? [d] = some (hexRank d).toUInt8 := by
  have hlt := Text.hexRank_lt_iff.mpr hd
  exact byte?_of_digits (by simp [hd]) (by simp) (by omega)

/-- Seventeen times a digit never overflows. -/
theorem doubled?_digit (hn : n < 16) : doubled? n.toUInt8 = some (channel n n) := by
  revert n
  decide

theorem mapM_byte?_singleton (h : ∀ d ∈ digits, IsHexDigit d) :
    digits.mapM (fun d => byte? [d]) = some (digits.map fun d => (hexRank d).toUInt8) := by
  induction digits with
  | nil => rfl
  | cons d digits ih =>
    obtain ⟨hd, hdigits⟩ := List.forall_mem_cons.mp h
    rw [List.mapM_cons, byte?_singleton hd, ih hdigits]
    rfl

/-- Of digits, each of which is one byte, no cut is inside a character or past the end. -/
theorem colorOfBytes?_eq (h : ∀ d ∈ digits, IsHexDigit d) :
    colorOfBytes? digits digits.length = some (ofDigits? (digits.map hexRank)) := by
  have hsize := fun d hd => utf8Size_of_isHexDigit (h d hd)
  rcases digits with _ | ⟨r, _ | ⟨g, _ | ⟨b, _ | ⟨r', _ | ⟨g', _ | ⟨b', _ | ⟨a, _ | ⟨a', _ | _⟩⟩⟩⟩⟩⟩⟩⟩
  case cons.cons.cons.nil =>
    have hthree := mapM_byte?_singleton h
    simp only [List.forall_mem_cons, ← Text.hexRank_lt_iff] at h
    simp only [List.length_cons, List.length_nil, colorOfBytes?, hthree]
    simp [doubled?_digit, h, ofDigits?]
  case cons.cons.cons.cons.cons.cons.nil =>
    simp only [List.forall_mem_cons] at h hsize
    simp [colorOfBytes?, slice?, cutByte?, hsize, byte?_pair, h, ofDigits?]
  case cons.cons.cons.cons.cons.cons.cons.cons.nil =>
    simp only [List.forall_mem_cons] at h hsize
    simp [colorOfBytes?, slice?, cutByte?, hsize, byte?_pair, h, ofDigits?]
  all_goals rfl

theorem all_isSome_hexValue?_iff {cs : List Char} :
    (cs.all fun c => (Text.hexValue? c).isSome) = true ↔ ∀ c ∈ cs, IsHexDigit c := by
  rw [List.all_eq_true]
  refine forall₂_congr fun c _ => ?_
  rw [Text.hexValue?_eq]
  split <;> simp_all

theorem readBytes?_eq (text : String) : readBytes? text = some (ofHex text) := by
  unfold readBytes? ofHex
  dsimp only
  by_cases hall : ∀ d ∈ digitChars text, IsHexDigit d
  · have hvalues := Text.mapM_hexValue?_eq_some_iff.mpr ⟨hall, rfl⟩
    rw [if_pos (all_isSome_hexValue?_iff.mpr hall), utf8ByteSize_digits hall,
      colorOfBytes?_eq hall, hvalues]
    rfl
  · have hnone : (digitChars text).mapM Text.hexValue? = none := by
      refine Option.eq_none_iff_forall_ne_some.mpr fun values hvalues => hall ?_
      exact (Text.mapM_hexValue?_eq_some_iff.mp hvalues).1
    rw [if_neg (all_isSome_hexValue?_iff.not.mpr hall), hnone]
    rfl

/-- For every text: it is read as a color just where it spells three, six or eight digits, and then
as what the digits denote; every other text is refused and named in the refusal. Read by its bytes
it gives the same, and no character is cut. For every color: the text that it is written as denotes
it and is, of all texts of that shape, the only one that does. -/
theorem ofHex_exact (s : String) (c : Color) :
    (ofHex s = .ok c ↔ ∃ digits, Spells s digits ∧ Denotes digits c) ∧
    ((∃ c, ofHex s = .ok c) ↔ ∃ digits, Spells s digits ∧
      (digits.length = 3 ∨ digits.length = 6 ∨ digits.length = 8)) ∧
    ((¬∃ c, ofHex s = .ok c) → ofHex s = .error (.badColor s) ∧
      (Fault.badColor s).message = "config error: invalid color: " ++ s) ∧
    readBytes? s = some (ofHex s) ∧
    ofHex c.toHex = .ok c ∧ Canonical c.toHex ∧
    ∀ t, Canonical t → (ofHex t = .ok c ↔ t = c.toHex) := by
  refine ⟨ofHex_eq_ok_iff_denotes, exists_ofHex_iff s, fun h => ⟨ofHex_refused h, ?_⟩,
    readBytes?_eq s, ofHex_toHex c, canonical_toHex c, fun t => ofHex_canonical_iff⟩
  simp [Fault.message, Fault.configDetail?, ← String.append_assoc]

end PocketTerminal.Color
