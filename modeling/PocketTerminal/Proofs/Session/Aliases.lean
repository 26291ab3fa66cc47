import PocketTerminal.Session.Run
import PocketTerminal.Proofs.Shell.Blanks
import PocketTerminal.Proofs.Shell.Quoting
import PocketTerminal.Proofs.Tables
import PocketTerminal.Proofs.Text.Pieces

/-! # What an alias stands for

The text given to `alias` is trimmed and loses a pair of quotes around it before it is kept,
and it is tokenized where the alias is used. So the words of an alias are those of the text
unless one of these passes has changed them. -/
namespace PocketTerminal

namespace Shell

variable {value inner : List Char} {quote : Char} {n : String}

/-- Trimmed, the text has the same quote at both ends. It need not be one quoted word. -/
def QuotedAround (value : List Char) : Prop :=
  ∃ quote inner, (quote = '\'' ∨ quote = '"') ∧ Text.trimChars value = quote :: (inner ++ [quote])

/-- The text ends in blanks, and a backslash escapes the first of them. -/
def EndsInEscapedBlank (value : List Char) : Prop :=
  value.getLast?.any Text.isBlank ∧ trailing (Text.trimChars value) % 2 = 1

theorem sameEnds_iff {cs : List Char} :
    (decide (2 ≤ cs.length) && cs.head? == some quote && cs.getLast? == some quote) ↔
      ∃ inner, cs = quote :: (inner ++ [quote]) := by
  simp only [Bool.and_eq_true, decide_eq_true_eq, beq_iff_eq]
  constructor
  · rintro ⟨⟨hlength, hhead⟩, hlast⟩
    obtain ⟨tail, rfl⟩ := List.head?_eq_some_iff.mp hhead
    rcases List.eq_nil_or_concat tail with rfl | ⟨inner, last, rfl⟩
    · exact absurd hlength (Nat.not_succ_le_self 1)
    · rw [List.concat_eq_append] at hlast ⊢
      rw [← List.cons_append, List.getLast?_concat] at hlast
      cases hlast
      exact ⟨inner, rfl⟩
  · rintro ⟨inner, rfl⟩
    refine ⟨⟨?_, rfl⟩, ?_⟩
    · simp
    · rw [← List.cons_append, List.getLast?_concat]

theorem withoutQuotes_of_not_quoted (hvalue : ¬QuotedAround value) :
    Memory.withoutQuotes value = Text.trimChars value := by
  refine if_neg fun hends => hvalue ?_
  rcases Bool.or_eq_true_iff.mp hends with hends | hends
  · obtain ⟨inner, hinner⟩ := sameEnds_iff.mp hends
    exact ⟨_, inner, .inl rfl, hinner⟩
  · obtain ⟨inner, hinner⟩ := sameEnds_iff.mp hends
    exact ⟨_, inner, .inr rfl, hinner⟩

theorem templates_trimChars (hvalue : ¬EndsInEscapedBlank value) :
    templates true (Text.trimChars value) = templates true value := by
  obtain ⟨before, behind, hsplit, hbefore, hbehind⟩ := Text.exists_trimChars value
  have hend : behind = [] ∨ trailing (Text.trimChars value) % 2 = 0 := by
    rcases List.eq_nil_or_concat behind with rfl | ⟨front, c, rfl⟩
    · exact .inl rfl
    · right
      have hlast : value.getLast?.any Text.isBlank := by
        rw [hsplit]
        simp [hbehind c (by simp)]
      have hodd : trailing (Text.trimChars value) % 2 ≠ 1 := fun h => hvalue ⟨hlast, h⟩
      omega
  conv_rhs => rw [hsplit]
  exact (templates_trimmed hbefore hbehind hend).symm

/-- Where neither pass changes a word, the text that is kept has the words of the text given. -/
theorem tokenizeWith_withoutQuotes (lookup : Lookup) {v : String} (hquoted : ¬QuotedAround v.toList)
    (hend : ¬EndsInEscapedBlank v.toList) :
    tokenizeWith lookup (String.ofList (Memory.withoutQuotes v.toList)) = tokenizeWith lookup v := by
  rw [tokenizeWith, String.toList_ofList, withoutQuotes_of_not_quoted hquoted,
    templates_trimChars hend]
  rfl

theorem trailing_plain (hn : isPlain n) : trailing n.toList = 0 := by
  refine trailing_eq_zero fun hlast => ?_
  obtain ⟨-, -, hescape, -⟩ := isPlainChar_iff.mp ((isPlain_iff.mp hn).2 _ (List.mem_of_getLast? hlast))
  exact hescape rfl

theorem tokenizeWith_plain_append (hn : isPlain n) (lookup : Lookup) (rest : String) :
    tokenizeWith lookup (n ++ " " ++ rest) = (tokenizeWith lookup rest).map (n :: ·) := by
  have heven : trailing n.toList % 2 = 0 := by rw [trailing_plain hn]
  have hblank : Text.allBlank " " := rfl
  rw [tokenizeWith, String.toList_append, String.toList_append]
  exact words_append _ (tokenizeWith_plain hn lookup) heven (by decide) (List.all_eq_true.mp hblank)

/-- An assignment is cut behind the name. -/
theorem cutAt_assignment (hassign : '=' ∉ n.toList) (v : String) :
    Text.cutAt '=' (n ++ "=" ++ v).toList = some (n.toList, v.toList) := by
  rw [String.toList_append, String.toList_append, List.append_assoc]
  exact Text.cutAt_append_cons hassign v.toList

theorem runAlias_assignment (hn : isPlain n) (hassign : '=' ∉ n.toList) (v : String) (e : Environment) :
    Memory.aliasCommand.run [n ++ "=" ++ v] e =
      (.ok .silent,
        { e with aliases := e.aliases.insert n (String.ofList (Memory.withoutQuotes v.toList)) }) := by
  obtain ⟨hne, hchars⟩ := isPlain_iff.mp hn
  have hblank : ∀ c ∈ n.toList, Text.isBlank c = false := fun c hc =>
    (isPlainChar_iff.mp (hchars c hc)).2.2.2.2
  have hcut := cutAt_assignment hassign v
  have hname : ¬(n.toList.isEmpty || n.toList.any Text.isBlank) := by
    simpa [hne] using hblank
  have hjoin : String.intercalate " " [n ++ "=" ++ v] = n ++ "=" ++ v := by simp
  simp only [Memory.aliasCommand, Memory.runAlias, hjoin, hcut, Text.trimChars_of_none hblank,
    if_neg hname, String.ofList_toList]

end Shell

namespace Session

open Shell

variable {s : Session} {n : String}

def aliased (s : Session) (argument : String) : Session :=
  s.absorb (Memory.aliasCommand.run [argument] s.environment).2

theorem expand_of_alias {line first text : String} {words : List String}
    (hline : tokenizeWith s.lookup line = .ok (first :: words))
    (halias : s.aliases.get? first = some text) :
    s.expand line = (tokenizeWith s.lookup text).map (· ++ words) := by
  rw [expand, hline]
  dsimp only
  rw [halias]

theorem expand_of_no_alias {line first : String} {words : List String}
    (hline : tokenizeWith s.lookup line = .ok (first :: words))
    (halias : s.aliases.get? first = none) : s.expand line = .ok (first :: words) := by
  rw [expand, hline]
  dsimp only
  rw [halias]

/-- The words of a line that begins with a fresh alias: those of the text that was kept for
it, then those of the rest of the line. -/
theorem expand_aliased (s : Session) (hn : isPlain n) (hassign : '=' ∉ n.toList) (v : String)
    {rest : String} {ys : List String} (hrest : tokenizeWith s.lookup rest = .ok ys) :
    (s.aliased (n ++ "=" ++ v)).expand (n ++ " " ++ rest) =
      (tokenizeWith s.lookup (String.ofList (Memory.withoutQuotes v.toList))).map (· ++ ys) := by
  have haliased : s.aliased (n ++ "=" ++ v) =
      { s with aliases := s.aliases.insert n (String.ofList (Memory.withoutQuotes v.toList)) } := by
    rw [aliased, runAlias_assignment hn hassign]
    rfl
  have hline : tokenizeWith s.lookup (n ++ " " ++ rest) = .ok (n :: ys) := by
    rw [tokenizeWith_plain_append hn, hrest]
    rfl
  rw [haliased]
  refine expand_of_alias hline ?_
  rw [Table.get?_insert, if_pos rfl]

/-- A fresh alias stands for the words of its text. Whatever the text is, `alias` accepts it,
and a line that begins with the alias has the words of the text without the quotes around it,
then those of the rest of the line. These are the words of the text itself, unless a quote that
begins it and one that ends it are taken for a pair, or the blank that its last backslash
escapes is trimmed. -/
theorem expand_alias (s : Session) {n : String} (hn : isPlain n) (hassign : '=' ∉ n.toList)
    (v : String) :
    (Memory.aliasCommand.run [n ++ "=" ++ v] s.environment).1 = .ok .silent ∧
      ∀ rest ys, tokenizeWith s.lookup rest = .ok ys →
        (s.aliased (n ++ "=" ++ v)).expand (n ++ " " ++ rest) =
            (tokenizeWith s.lookup (String.ofList (Memory.withoutQuotes v.toList))).map (· ++ ys) ∧
          ∀ xs, tokenizeWith s.lookup v = .ok xs → ¬QuotedAround v.toList →
            ¬EndsInEscapedBlank v.toList →
              (s.aliased (n ++ "=" ++ v)).expand (n ++ " " ++ rest) = .ok (xs ++ ys) := by
  refine ⟨?_, fun rest ys hrest => ⟨expand_aliased s hn hassign v hrest, ?_⟩⟩
  · rw [runAlias_assignment hn hassign]
  · intro xs hxs hquoted hend
    rw [expand_aliased s hn hassign v hrest, tokenizeWith_withoutQuotes _ hquoted hend, hxs]
    rfl

/-- A text that ends in a word of three parts: a quoted one, an escaped blank and a variable. -/
theorem expand_alias_greeting :
    ((start default).aliased "hi=echo 'good day,'\\ $USER").expand "hi there" =
      .ok ["echo", "good day, visitor", "there"] := by
  have hquoted : ¬QuotedAround "echo 'good day,'\\ $USER".toList := by
    rintro ⟨quote, inner, hquote, htrimmed⟩
    have hhead : (Text.trimChars "echo 'good day,'\\ $USER".toList).head? = some 'e' := by decide
    rw [htrimmed] at hhead
    cases Option.some.inj hhead
    exact absurd hquote (by decide)
  have hend : ¬EndsInEscapedBlank "echo 'good day,'\\ $USER".toList :=
    fun h => absurd h.1 (by decide)
  have hexpand := expand_alias (start default) (n := "hi") (by decide) (by decide)
    "echo 'good day,'\\ $USER"
  exact (hexpand.2 "there" ["there"] (by decide +kernel)).2 ["echo", "good day, visitor"]
    (by decide +kernel) hquoted hend

/-- Two quoted words lose the first quote and the last, which are no pair, and what was between
the words is quoted then. -/
theorem aliased_joins_words :
    tokenizeWith (start default).lookup "'echo' 'a b'" = .ok ["echo", "a b"] ∧
      tokenizeWith (start default).lookup "c" = .ok ["c"] ∧
      ((start default).aliased "x='echo' 'a b'").expand "x c" = .ok ["echo a", "b", "c"] := by
  decide +kernel

example :
    tokenizeWith (start default).lookup "echo a\\ " = .ok ["echo", "a "] ∧
      ((start default).aliased "x=echo a\\ ").expand "x c" = .ok ["echo", "a", "c"] := by
  decide +kernel

end Session
end PocketTerminal
