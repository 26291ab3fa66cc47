import PocketTerminal.Proofs.Files.Relocating
import Mathlib.Data.List.Induction
import Mathlib.Data.List.Infix

/-! # What stands at a path

A path in normal form is the list of the names along it. All that can be read of the entry
at its end is whether it is a file, its text and its page section. In a forest no two lists
of names lead to one entry, and what lies below it is at the lists that go on from there. -/
namespace PocketTerminal.Files

inductive Sight where
  | file (content : String) (pageSection : Option String)
  | directory (pageSection : Option String)
deriving DecidableEq, Repr

def Sight.isDirectory : Sight → Bool
  | file _ _ => false
  | directory _ => true

def Entry.sight (e : Entry) : Sight :=
  match e.payload with
  | .text content => .file content e.pageSection
  | .children _ => .directory e.pageSection

@[simp] theorem Entry.isDirectory_sight (e : Entry) : e.sight.isDirectory = e.isDirectory := by
  unfold sight isDirectory
  cases e.payload <;> rfl

namespace Store

variable {s t : Store} {i j d dir top : Slot} {name : String} {a b names : List String}
  {loose : Option Slot}

def trail (s : Store) (input : String) : List String := Path.components (s.resolve input)

theorem lookup_resolve (s : Store) (input : String) :
    s.lookup (s.resolve input) = s.descend root (s.trail input) := rfl

def sightAt? (s : Store) (i : Slot) : Option Sight := (s.at? i).map Entry.sight

def sight? (s : Store) (names : List String) : Option Sight :=
  (s.descend root names).bind s.sightAt?

def leadsToDirectory (s : Store) (names : List String) : Bool :=
  (s.sight? names).any Sight.isDirectory

theorem sightAt?_isSome_iff : (s.sightAt? i).isSome = true ↔ s.Live i := by
  simp [sightAt?, Live, Option.isSome_iff_exists]

theorem any_sightAt? : (s.sightAt? i).any Sight.isDirectory = s.isDirectory i := by
  cases h : s.at? i <;> simp [sightAt?, isDirectory, h]

theorem sight?_of_descend (h : s.descend root names = some i) : s.sight? names = s.sightAt? i := by
  rw [sight?, h, Option.bind_some]

theorem leadsToDirectory_of_descend (h : s.descend root names = some i) :
    s.leadsToDirectory names = s.isDirectory i := by
  rw [leadsToDirectory, sight?_of_descend h, any_sightAt?]

theorem leadsToDirectory_iff :
    s.leadsToDirectory names = true ↔
      ∃ i, s.descend root names = some i ∧ s.isDirectory i = true := by
  cases h : s.descend root names with
  | none => simp [leadsToDirectory, sight?, h]
  | some i => simp [leadsToDirectory_of_descend h]

theorem hasDirectory_eq (path : String) :
    s.hasDirectory path = s.leadsToDirectory (Path.components path) := by
  rw [Bool.eq_iff_iff, hasDirectory_iff, leadsToDirectory_iff]
  rfl

theorem descend_congr (h : ∀ d x, t.find? d x = s.find? d x) :
    t.descend i names = s.descend i names := by
  induction names generalizing i with
  | nil => rfl
  | cons x rest ih =>
    rw [descend, descend, h]
    exact congrArg _ (funext fun _ => ih)

theorem descend_trans : s.descend i (a ++ b) = (s.descend i a).bind fun d => s.descend d b := by
  induction a generalizing i with
  | nil => rfl
  | cons x rest ih => simp [descend, ih, Option.bind_assoc]

/-- All that a path leads through is there. -/
theorem exists_descend_on_way (h : s.descend i b = some j) (hab : a <+: b) :
    ∃ d, s.descend i a = some d := by
  obtain ⟨rest, rfl⟩ := hab
  rw [descend_trans] at h
  obtain ⟨d, hd, -⟩ := Option.bind_eq_some_iff.mp h
  exact ⟨d, hd⟩

namespace Forest

theorem find?_iff (h : s.Forest loose) :
    s.find? d name = some i ↔ s.parent? i = some d ∧ s.name? i = some name := by
  rw [h.find?_eq_some_iff, h.mem_children]

theorem descend_concat_iff (h : s.Forest loose) :
    s.descend dir (names ++ [name]) = some i ↔
      ∃ d, s.descend dir names = some d ∧ s.parent? i = some d ∧ s.name? i = some name := by
  simp only [descend_append, Option.bind_eq_some_iff, h.find?_iff]

/-- No two paths lead to one entry. -/
theorem descend_inj (h : s.Forest loose) (ha : s.descend root a = some i)
    (hb : s.descend root b = some i) : a = b := by
  have hroot {q : List String} {x : String} {k : Slot} (hq : s.descend root (q ++ [x]) = some k) :
      k ≠ root := by
    obtain ⟨d, -, hp, -⟩ := h.descend_concat_iff.mp hq
    rintro rfl
    rw [h.root_top] at hp
    cases hp
  -- From the end of the paths: an entry knows its parent and its name, so both end alike.
  induction a using List.reverseRecOn generalizing b i with
  | nil =>
    cases ha
    rcases List.eq_nil_or_concat b with rfl | ⟨q, x, rfl⟩
    · rfl
    · exact absurd rfl (hroot (List.concat_eq_append ▸ hb))
  | append_singleton p x ih =>
    obtain ⟨d, hd, hp, hn⟩ := h.descend_concat_iff.mp ha
    rcases List.eq_nil_or_concat b with rfl | ⟨q, y, rfl⟩
    · cases hb
      exact absurd rfl (hroot ha)
    · rw [List.concat_eq_append] at hb ⊢
      obtain ⟨d', hd', hp', hn'⟩ := h.descend_concat_iff.mp hb
      rw [hp] at hp'
      rw [hn] at hn'
      cases hp'
      cases hn'
      rw [ih hd hd']

theorem within_of_descend (h : s.Forest loose) (hd : s.descend i names = some j) : s.Within j i := by
  induction names generalizing i with
  | nil =>
    cases hd
    exact .refl _
  | cons x rest ih =>
    obtain ⟨c, hc, hrest⟩ := Option.bind_eq_some_iff.mp hd
    exact (ih hrest).trans (.up (h.find?_iff.mp hc).1 (.refl i))

theorem exists_descend_of_within (h : s.Forest loose) (hw : s.Within j i) :
    ∃ names, s.descend i names = some j := by
  induction hw with
  | refl _ => exact ⟨[], rfl⟩
  | up hp _ ih =>
    obtain ⟨names, hd⟩ := ih
    obtain ⟨name, hn⟩ := (live_of_parent? hp).name?
    exact ⟨names ++ [name], h.descend_concat_iff.mpr ⟨_, hd, hp, hn⟩⟩

/-- Entries are below each other as their paths are. -/
theorem within_iff_starts (h : s.Forest loose) (ha : s.descend root a = some i)
    (hb : s.descend root b = some j) : s.Within j i ↔ a <+: b := by
  constructor
  · intro hw
    obtain ⟨names, hd⟩ := h.exists_descend_of_within hw
    refine ⟨names, h.descend_inj ?_ hb⟩
    rw [descend_trans, ha, Option.bind_some, hd]
  · rintro ⟨names, rfl⟩
    rw [descend_trans, ha, Option.bind_some] at hb
    exact h.within_of_descend hb

theorem sight?_isSome_iff (h : s.Forest loose) :
    (s.sight? names).isSome = true ↔ ∃ i, s.descend root names = some i := by
  cases hd : s.descend root names with
  | none => simp [sight?, hd]
  | some i =>
    rw [sight?_of_descend hd, sightAt?_isSome_iff]
    exact ⟨fun _ => ⟨i, rfl⟩, fun _ => h.live_of_descend h.root_live hd⟩

theorem sight?_eq_none_iff (h : s.Forest loose) :
    s.sight? names = none ↔ s.descend root names = none := by
  rw [← Option.not_isSome_iff_eq_none, ← Option.not_isSome_iff_eq_none, h.sight?_isSome_iff,
    Option.isSome_iff_exists]

/-- Ways down in a store where every directory has lost at most one entry, as long as they
keep to directories that are known to have lost nothing else. -/
theorem descend_without (h : s.Forest loose) (hroot : top ≠ root)
    (htop : s.descend root a = some top) (known : List String → Prop)
    (hknown : ∀ q x, known (q ++ [x]) → known q)
    (hfind : ∀ q d x, s.descend root q = some d → ¬ s.Within d top → known (q ++ [x]) →
      ∀ c, t.find? d x = some c ↔ s.find? d x = some c ∧ c ≠ top) (hnames : known names) :
    t.descend root names = if a <+: names then none else s.descend root names := by
  induction names using List.reverseRecOn with
  | nil =>
    rw [if_neg]
    · rfl
    · intro hp
      rw [List.prefix_nil.mp hp] at htop
      exact hroot (Option.some.inj htop).symm
  | append_singleton q x ih =>
    have ih := ih (hknown q x hnames)
    rw [descend_append, ih]
    by_cases hq : a <+: q
    · rw [if_pos hq, if_pos (hq.trans (List.prefix_append q [x]))]
      rfl
    · rw [if_neg hq]
      cases hd : s.descend root q with
      | none =>
        rw [descend_append, hd]
        simp
      | some d =>
        have hout : ¬ s.Within d top := fun hw => hq ((h.within_iff_starts htop hd).mp hw)
        have hend : a <+: q ++ [x] ↔ s.find? d x = some top := by
          rw [List.prefix_concat_iff]
          constructor
          · rintro (rfl | hp)
            · rwa [descend_append, hd, Option.bind_some] at htop
            · exact absurd hp hq
          · intro hf
            refine .inl (h.descend_inj htop ?_)
            rw [descend_append, hd, Option.bind_some, hf]
        have hfind := hfind q d x hd hout hnames
        rw [Option.bind_some, descend_append, hd, Option.bind_some]
        -- `d` is still outside the tree, so the next name either leads to its top or is not affected.
        by_cases hf : s.find? d x = some top
        · rw [if_pos (hend.mpr hf), Option.eq_none_iff_forall_ne_some]
          intro c hc
          obtain ⟨hsc, hne⟩ := (hfind c).mp hc
          rw [hf] at hsc
          exact hne (Option.some.inj hsc).symm
        · rw [if_neg (mt hend.mp hf)]
          refine Option.ext fun c => (hfind c).trans (and_iff_left_of_imp ?_)
          rintro hc rfl
          exact hf hc

end Forest
end Store
end PocketTerminal.Files
