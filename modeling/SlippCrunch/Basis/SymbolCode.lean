import Mathlib.Data.List.Infix
import Mathlib.Data.List.TakeWhile

/-! Codes that write each symbol as a word of letters, and texts of such words in a row. -/

/-- A code of symbols by words, and a reader of the word a text begins with. -/
structure SymbolCode (Symbol Letter : Type*) where
  /-- The word of a symbol. -/
  word : Symbol → List Letter
  /-- The symbol whose word stands first, and what follows it. -/
  read : List Letter → Option (Symbol × List Letter)
  /-- Whatever follows a word, the word itself is read. -/
  read_word : ∀ symbol rest, read (word symbol ++ rest) = some (symbol, rest)

namespace SymbolCode

variable {Symbol Letter : Type*} (code : SymbolCode Symbol Letter)

/-- The words of some symbols in their order. -/
def text (symbols : List Symbol) : List Letter := symbols.flatMap code.word

/-- No symbols have no letters. -/
@[simp] theorem text_nil : code.text [] = [] := rfl

/-- The first symbol's word stands first. -/
@[simp] theorem text_cons (symbol : Symbol) (symbols : List Symbol) :
    code.text (symbol :: symbols) = code.word symbol ++ code.text symbols := rfl

/-- Texts are put together like their symbols. -/
@[simp] theorem text_append (first second : List Symbol) :
    code.text (first ++ second) = code.text first ++ code.text second := List.flatMap_append

/-- A text tells its first symbol and where the next word starts. -/
theorem word_append_inj {symbol other : Symbol} {rest rest' : List Letter}
    (same : code.word symbol ++ rest = code.word other ++ rest') : symbol = other ∧ rest = rest' := by
  -- Reading a word back gives its symbol and what is left behind it.
  have read := code.read_word symbol rest
  rw [same, code.read_word] at read
  simpa [eq_comm] using read

/-- Read symbols up to a closing letter, at most a given number of them. -/
def readTo [DecidableEq Letter] (close : Letter) :
    Nat → List Letter → Option (List Symbol × List Letter)
  | 0, _ => none
  | budget + 1, letters =>
    if letters.head? = some close then some ([], letters.tail)
    else match code.read letters with
      | none => none
      | some (symbol, rest) => (readTo close budget rest).map fun (symbols, rest) =>
        (symbol :: symbols, rest)

/-- A closing letter that starts no word ends the text it was put behind. -/
theorem readTo_text [DecidableEq Letter] {close : Letter}
    (apart : ∀ symbol rest, (code.word symbol ++ rest).head? ≠ some close)
    (symbols : List Symbol) (rest : List Letter) {budget : Nat} (enough : symbols.length < budget) :
    code.readTo close budget (code.text symbols ++ close :: rest) = some (symbols, rest) := by
  -- Each turn takes one word off, and the last one meets the closing letter.
  induction symbols generalizing budget with
  | nil =>
    obtain ⟨budget, rfl⟩ := Nat.exists_eq_succ_of_ne_zero (Nat.ne_of_gt enough)
    rw [text_nil, List.nil_append, readTo, if_pos List.head?_cons, List.tail_cons]
  | cons symbol symbols ih =>
    obtain ⟨budget, rfl⟩ := Nat.exists_eq_succ_of_ne_zero (Nat.ne_of_gt (Nat.zero_lt_of_lt enough))
    have fewer : symbols.length < budget := Nat.lt_of_succ_lt_succ enough
    rw [text_cons, List.append_assoc, readTo, if_neg (apart symbol _), code.read_word]
    simp only [ih fewer, Option.map_some]

section Finding

variable [DecidableEq Letter]

/-- The first place at which a pattern occurs in a text. -/
def find (pattern : List Letter) : List Letter → Option Nat
  | [] => if pattern = [] then some 0 else none
  | letter :: letters =>
    if pattern <+: letter :: letters then some 0 else (find pattern letters).map (· + 1)

/-- A pattern at the front of a text is found there. -/
theorem find_of_prefix {pattern letters : List Letter} (front : pattern <+: letters) :
    find pattern letters = some 0 := by
  -- The search looks at the front before it goes on.
  cases letters with
  | nil => rw [find, if_pos (List.prefix_nil.mp front)]
  | cons letter letters => rw [find, if_pos front]

/-- The text with the first occurrence of a pattern replaced. -/
def replaceFirst (pattern replacement letters : List Letter) : List Letter :=
  match find pattern letters with
  | some index => letters.take index ++ replacement ++ letters.drop (index + pattern.length)
  | none => letters

end Finding

/-- Letters that start words are told apart from the letters further in. -/
structure Synchronized (leads : Letter → Bool) : Prop where
  shape : ∀ symbol, ∃ lead inner, code.word symbol = lead :: inner ∧ leads lead = true ∧
    ∀ letter ∈ inner, leads letter = false

namespace Synchronized

variable {code} {leads : Letter → Bool} (synchronized : code.Synchronized leads)
include synchronized

/-- Texts with the same letters have the same symbols. -/
theorem text_injective : Function.Injective code.text := by
  -- The first words agree, and so do the texts behind them.
  intro symbols
  induction symbols with
  | nil =>
    intro others same
    cases others with
    | nil => rfl
    | cons other others =>
      obtain ⟨lead, inner, word, -, -⟩ := synchronized.shape other
      rw [text_nil, text_cons, word] at same
      exact absurd same (List.cons_ne_nil _ _).symm
  | cons symbol symbols ih =>
    intro others same
    cases others with
    | nil =>
      obtain ⟨lead, inner, word, -, -⟩ := synchronized.shape symbol
      rw [text_nil, text_cons, word] at same
      exact absurd same (List.cons_ne_nil _ _)
    | cons other others =>
      obtain ⟨head, tail⟩ := code.word_append_inj same
      rw [head, ih tail]

variable [DecidableEq Letter]

/-- No word starts at letters from inside of a word. -/
theorem find_inner (symbol : Symbol) {inner : List Letter}
    (inside : ∀ letter ∈ inner, leads letter = false) (letters : List Letter) :
    find (code.word symbol) (inner ++ letters) =
      (find (code.word symbol) letters).map (· + inner.length) := by
  obtain ⟨lead, behind, word, leading, -⟩ := synchronized.shape symbol
  -- Letter by letter, since the word begins with a letter that leads.
  induction inner with
  | nil => simp
  | cons letter inner ih =>
    have differs : ¬ code.word symbol <+: letter :: (inner ++ letters) := by
      rw [word, List.cons_prefix_cons]
      rintro ⟨rfl, -⟩
      rw [inside lead (List.mem_cons_self ..)] at leading
      exact absurd leading Bool.false_ne_true
    rw [List.cons_append, find, if_neg differs,
      ih fun letter member => inside letter (List.mem_cons_of_mem _ member), Option.map_map]
    rfl

/-- A word is found where its symbol stands, never across the words of other symbols. -/
theorem find_text [DecidableEq Symbol] (symbol : Symbol) (symbols : List Symbol) :
    find (code.word symbol) (code.text symbols) =
      if symbol ∈ symbols then some (code.text (symbols.takeWhile (· ≠ symbol))).length
      else none := by
  induction symbols with
  | nil =>
    obtain ⟨lead, inner, word, -, -⟩ := synchronized.shape symbol
    simp [find, word]
  | cons other symbols ih =>
    by_cases same : other = symbol
    · subst same
      rw [text_cons, find_of_prefix (List.prefix_append _ _)]
      simp
    · -- Neither the lead of another word nor its further letters start the word sought.
      obtain ⟨lead, inner, word, leading, inside⟩ := synchronized.shape other
      have differs : ¬ code.word symbol <+: lead :: (inner ++ code.text symbols) := by
        rintro ⟨rest, whole⟩
        rw [← List.cons_append, ← word] at whole
        exact same (code.word_append_inj whole).1.symm
      -- So the search goes on behind the other word.
      have further := synchronized.find_inner symbol inside (code.text symbols)
      rw [text_cons, word, List.cons_append, find, if_neg differs, further, ih]
      have kept : (other :: symbols).takeWhile (· ≠ symbol) =
          other :: symbols.takeWhile (· ≠ symbol) := by
        simp [same]
      -- What is found there lies behind by the length of that word.
      by_cases member : symbol ∈ symbols
      · rw [if_pos member, if_pos (List.mem_cons_of_mem _ member), kept, text_cons,
          List.length_append, word, List.length_cons, Option.map_some, Option.map_some]
        congr 1
        omega
      · have missing : symbol ∉ other :: symbols := by
          simp [member, Ne.symm same]
        rw [if_neg member, if_neg missing]
        rfl

/-- Replacing the first occurrence of a word replaces the first such symbol. -/
theorem replaceFirst_text [DecidableEq Symbol] (symbol replacement : Symbol) (symbols : List Symbol) :
    replaceFirst (code.word symbol) (code.word replacement) (code.text symbols) =
      code.text (symbols.replace symbol replacement) := by
  -- The word is found where the symbol first stands.
  rw [replaceFirst, synchronized.find_text]
  by_cases member : symbol ∈ symbols
  · -- The symbols before the first occurrence and those behind it are kept.
    obtain ⟨before, after, rfl, first⟩ := List.eq_append_cons_of_mem member
    have front : (before ++ symbol :: after).takeWhile (· ≠ symbol) = before := by
      rw [List.takeWhile_append_of_pos fun other inside => ?_]
      · simp
      · simpa using fun same : other = symbol => first (same ▸ inside)
    rw [if_pos member, front, List.replace_append_right first, List.replace_cons_self]
    simp [List.drop_append]
  · rw [if_neg member, List.replace_of_not_mem member]

end Synchronized

end SymbolCode
