import LoxLang.Token.Lexing

/-!
# The longest piece at each place

The texts that a source is made of, said without cutting: a few classes of texts (`PieceClass`),
each with its rule. What `nextPiece` takes is the longest prefix of any class, of the class that the
piece says it is (`nextPiece_taken`); a text that starts no class is a fault. So a source is cut as
the rules want it at each place, and tokens and reports are those of its pieces
(`lex_takes_longest`).
-/

namespace LoxLang

/-!
## Classes of texts

What may be taken is said by classes of texts, without the scanner: which texts are marks, words,
numbers, strings, blanks and comments. A piece is what is longest among them.
-/

/-- What a piece without fault can be. -/
inductive PieceClass where
  | mark (m : Mark)
  | number
  | word
  | string
  | comment
  | blank
deriving DecidableEq

/-- The texts of a class. -/
inductive PieceClass.Matches : PieceClass → List Char → Prop
  | mark (m : Mark) : Matches (.mark m) m.text.toList
  | whole (digits : List Char) (hne : digits ≠ []) (h : ∀ d ∈ digits, isDigit d) :
      Matches .number digits
  | fraction (digits places : List Char) (hne : digits ≠ []) (h : ∀ d ∈ digits, isDigit d)
      (hne' : places ≠ []) (h' : ∀ d ∈ places, isDigit d) :
      Matches .number (digits ++ '.' :: places)
  | word (c : Char) (more : List Char) (hc : isNameStart c) (h : ∀ d ∈ more, isNamePart d) :
      Matches .word (c :: more)
  | string (content : List Char) (h : '"' ∉ content) : Matches .string ('"' :: (content ++ ['"']))
  | comment (body : List Char) (h : '\n' ∉ body) : Matches .comment ('/' :: '/' :: body)
  | blank (c : Char) (h : isBlank c) : Matches .blank [c]

/-- The class of a piece, unless it is a fault. -/
def Piece.class? : Piece → Option PieceClass
  | token (.mark m) => some (.mark m)
  | token (.keyword _) | token (.identifier _) => some .word
  | token (.string _) => some .string
  | token (.number _) => some .number
  | comment _ => some .comment
  | blank _ => some .blank
  | unexpected _ | unterminated _ => none

/-- A text is the longest of all prefixes that belong to a class, and belongs to this one alone. -/
structure PieceClass.Longest (k : PieceClass) (text ahead : List Char) : Prop where
  ofClass : k.Matches text
  isPrefix : text <+: ahead
  longest : ∀ k' text', Matches k' text' → text' <+: ahead → text'.length ≤ text.length
  only : ∀ k', Matches k' text → k' = k

/-- A piece is what the rules take from the front of a text. A character that starts no text of any
class is taken alone, and a quotation mark without a partner with all that follows it. -/
def Piece.Taken (ahead : List Char) : Piece → Prop
  | unexpected c => c ≠ '"' ∧ (∃ rest, ahead = c :: rest) ∧
      ∀ k text, ¬PieceClass.Matches k (c :: text)
  | unterminated body => ahead = '"' :: body ∧ ∀ k text, PieceClass.Matches k text → ¬text <+: ahead
  | p => ∃ k, p.class? = some k ∧ k.Longest p.text ahead

/-!
## First characters

The first character tells almost which class a text belongs to: only marks can begin with the same
character, and a slash can begin a comment.
-/

/-- The classes that have texts starting with a character. -/
def classesAt (c : Char) : List PieceClass :=
  match singleMark? c with
  | some m => [.mark m]
  | none =>
    match markPair? c with
    | some (short, long) => [.mark short, .mark long]
    | none =>
      if c = '/' then [.mark .slash, .comment]
      else if isBlank c then [.blank]
      else if c = '"' then [.string]
      else if isDigit c then [.number]
      else if isNameStart c then [.word]
      else []

/-- What a character is not if it is none of those that a rule names. -/
theorem classesAt_of_plain {c : Char} (hsingle : singleMark? c = none) (hpair : markPair? c = none)
    (hslash : c ≠ '/') (hblank : isBlank c = false) (hquote : c ≠ '"') :
    classesAt c = if isDigit c then [.number] else if isNameStart c then [.word] else [] := by
  unfold classesAt
  simp [hsingle, hpair, hslash, hblank, hquote]

/-- A digit begins no word. -/
theorem isNameStart_of_isDigit {c : Char} (h : isDigit c) : isNameStart c = false := by
  have hupper : c ≤ '9' := by
    unfold isDigit at h
    simpa using (Bool.and_eq_true_iff.mp h).2
  have hlower : ∀ d : Char, '9' < d → ¬d ≤ c := fun d hd hle =>
    Char.not_le.mpr hd (Char.le_trans hle hupper)
  have hne : c ≠ '_' := fun hc => absurd hupper (hc ▸ by decide)
  simp [isNameStart, hlower 'a' (by decide), hlower 'A' (by decide), hne]

/-- What can be part of a word begins no other class but numbers. -/
theorem plain_of_isNamePart {c : Char} (h : isNamePart c) :
    singleMark? c = none ∧ markPair? c = none ∧ c ≠ '/' ∧ isBlank c = false ∧ c ≠ '"' := by
  have hne : ∀ d : Char, isNamePart d = false → c ≠ d := fun d hd hcd => by
    rw [hcd, hd] at h
    cases h
  refine ⟨?_, ?_, hne '/' (by decide), ?_, hne '"' (by decide)⟩
  · unfold singleMark?
    split <;> first | rfl | exact absurd rfl (hne _ (by decide))
  · unfold markPair?
    split <;> first | rfl | exact absurd rfl (hne _ (by decide))
  · simp [isBlank, hne ' ' (by decide), hne '\r' (by decide), hne '\t' (by decide),
      hne '\n' (by decide)]

/-- A mark is among the classes of its first character. -/
theorem Mark.mem_classesAt {m : Mark} {c : Char} {text : List Char}
    (h : m.text.toList = c :: text) : .mark m ∈ classesAt c := by
  cases m <;> simp [Mark.text] at h <;> obtain ⟨rfl, -⟩ := h <;> decide

/-- A text has one of the classes of its first character. -/
theorem PieceClass.Matches.mem_classesAt {k : PieceClass} {c : Char} {text : List Char}
    (h : k.Matches (c :: text)) : k ∈ classesAt c := by
  -- A character that can stand in a name begins no mark, blank or string.
  have hplain : isNamePart c → classesAt c =
      if isDigit c then [.number] else if isNameStart c then [.word] else [] := fun hc => by
    obtain ⟨hsingle, hpair, hslash, hblank, hquote⟩ := plain_of_isNamePart hc
    exact classesAt_of_plain hsingle hpair hslash hblank hquote
  have hnumber : isDigit c → .number ∈ classesAt c := fun hc => by
    rw [hplain (by simp [isNamePart, hc]), if_pos hc]
    exact List.mem_singleton_self _
  generalize hcs : c :: text = cs at h
  cases h with
  | mark m => exact Mark.mem_classesAt hcs.symm
  | whole digits hne h =>
    subst hcs
    exact hnumber (h c List.mem_cons_self)
  | fraction digits places hne h hne' h' =>
    obtain ⟨d, digits, rfl⟩ := List.exists_cons_of_ne_nil hne
    obtain ⟨rfl, -⟩ := List.cons.inj hcs
    exact hnumber (h c List.mem_cons_self)
  | word d more hd h =>
    obtain ⟨rfl, -⟩ := List.cons.inj hcs
    have hdigit : ¬isDigit c := fun hc => by
      rw [isNameStart_of_isDigit hc] at hd
      cases hd
    rw [hplain (by simp [isNamePart, hd]), if_neg hdigit, if_pos hd]
    exact List.mem_singleton_self _
  | string content h =>
    obtain ⟨rfl, -⟩ := List.cons.inj hcs
    decide
  | comment body h =>
    obtain ⟨rfl, -⟩ := List.cons.inj hcs
    decide
  | blank d h =>
    obtain ⟨rfl, -⟩ := List.cons.inj hcs
    simp only [isBlank, Bool.or_eq_true, decide_eq_true_eq] at h
    rcases h with ((rfl | rfl) | rfl) | rfl <;> decide

/-- No text of a class is empty. -/
theorem PieceClass.Matches.ne_nil {k : PieceClass} {text : List Char} (h : k.Matches text) :
    text ≠ [] := by
  cases h with
  | mark m => cases m <;> simp [Mark.text]
  | whole digits hne h => exact hne
  | fraction digits places hne h hne' h' => simp
  | _ => exact List.cons_ne_nil _ _

/-- Marks differ in their texts. -/
theorem Mark.text_injective {m m' : Mark} (h : m.text.toList = m'.text.toList) : m = m' := by
  cases m <;> cases m' <;> simp [Mark.text] at h ⊢

/-- Two classes that begin with the same character are marks, or a slash and a comment. -/
theorem classesAt_cases {c : Char} {k k' : PieceClass} (h : k ∈ classesAt c)
    (h' : k' ∈ classesAt c) :
    k' = k ∨ (∃ m m', k = .mark m ∧ k' = .mark m') ∨ k = .mark .slash ∧ k' = .comment ∨
      k = .comment ∧ k' = .mark .slash := by
  unfold classesAt at h h'
  grind

/-- A mark has one text. -/
theorem PieceClass.Matches.eq_text {m : Mark} {text : List Char}
    (h : (PieceClass.mark m).Matches text) : text = m.text.toList := by
  cases h
  rfl

/-- No text has two classes. -/
theorem PieceClass.Matches.unique {k k' : PieceClass} {text : List Char} (h : k.Matches text)
    (h' : k'.Matches text) : k' = k := by
  obtain ⟨c, more, rfl⟩ := List.exists_cons_of_ne_nil h.ne_nil
  have hslash : ∀ {text : List Char}, (PieceClass.mark .slash).Matches text →
      ¬PieceClass.comment.Matches text := by
    intro text hmark hcomment
    cases hcomment
    simpa [Mark.text] using hmark.eq_text
  rcases classesAt_cases h.mem_classesAt h'.mem_classesAt with
    heq | ⟨m, m', rfl, rfl⟩ | ⟨rfl, rfl⟩ | ⟨rfl, rfl⟩
  · exact heq
  · rw [Mark.text_injective (h'.eq_text.symm.trans h.eq_text)]
  · exact absurd h' (hslash h)
  · exact absurd h (hslash h')

/-!
## What is taken

One lemma for each way in which `nextPiece` cuts. A longer text of the class, or a text of another
class, would have to go on in a way that the source does not.
-/

section Taking

open PieceClass

variable {k : PieceClass} {c : Char} {rest text ahead : List Char}

/-- To be the longest text ahead, it must match, be in front, and not be shorter than others. -/
theorem PieceClass.Longest.of (h : k.Matches text) (hfront : text <+: ahead)
    (hlongest : ∀ k' text', Matches k' text' → text' <+: ahead → text'.length ≤ text.length) :
    k.Longest text ahead :=
  ⟨h, hfront, hlongest, fun _ h' => h.unique h'⟩

/-- A prefix of some class starts with the first character, which decides on the class. -/
theorem PieceClass.Matches.of_prefix (h : k.Matches text) (hfront : text <+: c :: rest) :
    ∃ more, text = c :: more ∧ more <+: rest ∧ k ∈ classesAt c := by
  obtain ⟨d, more, rfl⟩ := List.exists_cons_of_ne_nil h.ne_nil
  obtain ⟨rfl, hmore⟩ := List.cons_prefix_cons.mp hfront
  exact ⟨more, rfl, hmore, h.mem_classesAt⟩

/-- A text of such characters in front is part of the longest one. -/
theorem prefix_takeWhile {p : Char → Bool} (hfront : text <+: ahead) (h : ∀ d ∈ text, p d) :
    text <+: ahead.takeWhile p := by
  obtain ⟨more, rfl⟩ := hfront
  rw [List.takeWhile_append_of_pos h]
  exact List.prefix_append _ _

/-- All characters of the longest one are such. -/
theorem all_takeWhile (p : Char → Bool) (cs : List Char) : ∀ d ∈ cs.takeWhile p, p d :=
  List.all_eq_true.mp List.all_takeWhile

/-- A mark than which no longer text stands ahead. -/
theorem taken_mark {m : Mark} (hfront : m.text.toList <+: ahead)
    (hlongest : ∀ k' text', Matches k' text' → text' <+: ahead →
      text'.length ≤ m.text.toList.length) : (Piece.ofMark m).Taken ahead :=
  ⟨.mark m, rfl, .of (.mark m) hfront hlongest⟩

/-- A mark that begins no longer one. -/
theorem taken_singleMark {m : Mark} (h : singleMark? c = some m) :
    (Piece.ofMark m).Taken (c :: rest) := by
  have hclasses : classesAt c = [.mark m] := by
    unfold classesAt
    rw [h]
  have htext : m.text.toList = [c] := by
    unfold singleMark? at h
    split at h <;> cases h <;> rfl
  refine taken_mark (htext ▸ ⟨rest, rfl⟩) fun k' text' h' hfront => ?_
  obtain ⟨more, rfl, -, hk'⟩ := h'.of_prefix hfront
  rw [hclasses, List.mem_singleton] at hk'
  subst hk'
  exact Nat.le_of_eq (congrArg List.length h'.eq_text)

/-- A mark that is longer with an equals sign behind it. -/
theorem taken_markPair {short long : Mark} (h : markPair? c = some (short, long)) :
    (markBeforeEqual short long rest).1.Taken (c :: rest) := by
  have hclasses : classesAt c = [.mark short, .mark long] := by
    have hsingle : singleMark? c = none := by
      unfold markPair? at h
      split at h <;> first | rfl | cases h
    unfold classesAt
    rw [hsingle, h]
  obtain ⟨hshort, hlong⟩ : short.text.toList = [c] ∧ long.text.toList = [c, '='] := by
    unfold markPair? at h
    split at h <;> cases h <;> exact ⟨rfl, rfl⟩
  -- Whatever matches here is one of the two marks.
  have hmarks : ∀ k' text', Matches k' text' → text' <+: c :: rest →
      text' = [c] ∨ text' = [c, '='] := by
    intro k' text' h' hfront
    obtain ⟨more, rfl, -, hk'⟩ := h'.of_prefix hfront
    rw [hclasses, List.mem_cons, List.mem_singleton] at hk'
    rcases hk' with rfl | rfl
    · exact .inl (h'.eq_text.trans hshort)
    · exact .inr (h'.eq_text.trans hlong)
  unfold markBeforeEqual
  split
  · next rest =>
    refine taken_mark (hlong ▸ ⟨rest, rfl⟩) fun k' text' h' hfront => ?_
    rw [hlong]
    rcases hmarks k' text' h' hfront with rfl | rfl <;> simp
  · next hne =>
    refine taken_mark (hshort ▸ ⟨rest, rfl⟩) fun k' text' h' hfront => ?_
    rw [hshort]
    rcases hmarks k' text' h' hfront with rfl | rfl
    · exact Nat.le_refl 1
    · -- The longer mark would need an equals sign next.
      obtain ⟨-, more, rfl⟩ := List.cons_prefix_cons.mp hfront
      exact absurd rfl (hne more)

/-- A comment goes on to the end of the line. Without a second slash it is a mark. -/
theorem taken_afterSlash : (afterSlash rest).1.Taken ('/' :: rest) := by
  have hclasses : classesAt '/' = [.mark .slash, .comment] := rfl
  -- A slash alone is shorter than a comment, and a comment ends where the line does.
  unfold afterSlash
  split
  · next rest =>
    refine ⟨.comment, rfl, .of (.comment _ fun h => ?_) ?_ fun k' text' h' hfront => ?_⟩
    · simpa using all_takeWhile _ _ _ h
    · exact List.cons_prefix_cons.mpr
        ⟨rfl, List.cons_prefix_cons.mpr ⟨rfl, List.takeWhile_prefix _⟩⟩
    · obtain ⟨more, rfl, -, hk'⟩ := h'.of_prefix hfront
      rw [hclasses, List.mem_cons, List.mem_singleton] at hk'
      rcases hk' with rfl | rfl
      · rw [h'.eq_text]
        exact Nat.succ_le_succ (Nat.zero_le _)
      · cases h' with
        | comment body hbody =>
          obtain ⟨-, hfront⟩ := List.cons_prefix_cons.mp hfront
          obtain ⟨-, hfront⟩ := List.cons_prefix_cons.mp hfront
          have hle := prefix_takeWhile (p := (· ≠ '\n')) hfront fun d hd => by
            simpa using fun hn : d = '\n' => hbody (hn ▸ hd)
          exact Nat.succ_le_succ (Nat.succ_le_succ hle.length_le)
  · next hne =>
    refine taken_mark ⟨rest, rfl⟩ fun k' text' h' hfront => ?_
    obtain ⟨more, rfl, hmore, hk'⟩ := h'.of_prefix hfront
    rw [hclasses, List.mem_cons, List.mem_singleton] at hk'
    rcases hk' with rfl | rfl
    · exact Nat.le_of_eq (congrArg List.length h'.eq_text)
    · cases h' with
      | comment body hbody =>
        obtain ⟨more, rfl⟩ := hmore
        exact absurd rfl (hne (body ++ more))

/-- Blanks are taken one by one. -/
theorem taken_blank (h : isBlank c) (hclasses : classesAt c = [.blank]) :
    (Piece.blank c).Taken (c :: rest) := by
  refine ⟨.blank, rfl, .of (.blank c h) ⟨rest, rfl⟩ fun k' text' h' hfront => ?_⟩
  obtain ⟨more, rfl, -, hk'⟩ := h'.of_prefix hfront
  rw [hclasses, List.mem_singleton] at hk'
  subst hk'
  cases h'
  exact Nat.le_refl 1

/-- A string that starts a text is cut at the first quotation mark in it. -/
theorem takeWhile_of_string {content : List Char} (h : '"' ∉ content)
    (hfront : content ++ ['"'] <+: rest) :
    rest.takeWhile (· ≠ '"') = content ∧ ∃ more, rest.dropWhile (· ≠ '"') = '"' :: more := by
  obtain ⟨more, rfl⟩ := hfront
  have hall : ∀ d ∈ content, (d ≠ '"' : Bool) = true := fun d hd => by
    simpa using fun hn : d = '"' => h (hn ▸ hd)
  rw [List.append_assoc, List.takeWhile_append_of_pos hall, List.dropWhile_append_of_pos hall]
  simp

/-- A string goes on to the next quote. If there is none, it is a fault. -/
theorem taken_afterQuote : (afterQuote rest).1.Taken ('"' :: rest) := by
  have hclasses : classesAt '"' = [.string] := rfl
  have hstring : ∀ k' text', Matches k' text' → text' <+: '"' :: rest →
      text' = '"' :: (rest.takeWhile (· ≠ '"') ++ ['"']) ∧
        ∃ more, rest.dropWhile (· ≠ '"') = '"' :: more := by
    intro k' text' h' hfront
    obtain ⟨more, rfl, hmore, hk'⟩ := h'.of_prefix hfront
    rw [hclasses, List.mem_singleton] at hk'
    subst hk'
    cases h' with
    | string content hcontent =>
      obtain ⟨htake, hdrop⟩ := takeWhile_of_string hcontent hmore
      exact ⟨by rw [htake], hdrop⟩
  have hparts := List.takeWhile_append_dropWhile (p := (· ≠ '"')) (l := rest)
  -- Without a second quotation mark no string starts here, and nothing else starts with the first.
  unfold afterQuote
  dsimp only
  split
  · next hnone =>
    rw [hnone, List.append_nil] at hparts
    refine ⟨by rw [hparts], fun k' text' h' hfront => ?_⟩
    obtain ⟨-, more, hmore⟩ := hstring k' text' h' hfront
    rw [hnone] at hmore
    cases hmore
  · next d more hsome =>
    obtain rfl := head_dropWhile_eq_quote hsome
    have htext : (Piece.token (.string (String.ofList (rest.takeWhile (· ≠ '"'))))).text =
        '"' :: (rest.takeWhile (· ≠ '"') ++ ['"']) := by
      simp [Piece.text, TokenKind.lexeme]
    refine ⟨.string, rfl, htext ▸ .of (.string _ fun h => ?_) ?_ fun k' text' h' hfront => ?_⟩
    · simpa using all_takeWhile _ _ _ h
    · refine List.cons_prefix_cons.mpr ⟨rfl, more, ?_⟩
      rw [List.append_assoc, List.singleton_append, ← hsome, hparts]
    · exact Nat.le_of_eq (congrArg List.length (hstring k' text' h' hfront).1)

/-- A text of digits, and of digits with a point, that starts another text. -/
theorem length_of_number (h : PieceClass.number.Matches text) (hfront : text <+: c :: rest) :
    text.length ≤ (c :: rest.takeWhile isDigit).length ∨
      ∃ d more places, rest.dropWhile isDigit = '.' :: d :: more ∧ isDigit d ∧
        places <+: more.takeWhile isDigit ∧
        text = c :: rest.takeWhile isDigit ++ '.' :: d :: places := by
  -- Without a fraction the digits in a row bound it; with one, there is a digit behind the point.
  cases h with
  | whole digits hne h =>
    obtain ⟨d, digits, rfl⟩ := List.exists_cons_of_ne_nil hne
    obtain ⟨rfl, hmore⟩ := List.cons_prefix_cons.mp hfront
    have htake := prefix_takeWhile hmore fun d hd => h d (List.mem_cons_of_mem _ hd)
    exact .inl (Nat.succ_le_succ htake.length_le)
  | fraction digits places hne h hne' h' =>
    obtain ⟨d, digits, rfl⟩ := List.exists_cons_of_ne_nil hne
    obtain ⟨e, places, rfl⟩ := List.exists_cons_of_ne_nil hne'
    obtain ⟨rfl, more, hmore⟩ := List.cons_prefix_cons.mp hfront
    have hrest : rest = digits ++ '.' :: e :: (places ++ more) := by
      rw [← hmore]
      exact List.append_assoc _ _ _
    have hdigits : ∀ d ∈ digits, isDigit d := fun d hd => h d (List.mem_cons_of_mem _ hd)
    have hpoint : isDigit '.' = false := rfl
    refine .inr ⟨e, places ++ more, places, ?_, h' e List.mem_cons_self, ?_, ?_⟩
    · rw [hrest, List.dropWhile_append_of_pos hdigits]
      simp [hpoint]
    · exact prefix_takeWhile (List.prefix_append _ _) fun d hd => h' d (List.mem_cons_of_mem _ hd)
    · rw [hrest, List.takeWhile_append_of_pos hdigits]
      simp [hpoint]

/-- The text of a number is what was cut. -/
theorem text_number (cs : List Char) : (Piece.token (.number (String.ofList cs))).text = cs := by
  simp [Piece.text, TokenKind.lexeme]

/-- Digits, and a point only where a digit stands behind it. -/
theorem taken_afterDigit (hc : isDigit c) (hclasses : classesAt c = [.number]) :
    (afterDigit c rest).1.Taken (c :: rest) := by
  have hwhole : ∀ d ∈ c :: rest.takeWhile isDigit, isDigit d := by
    intro d hd
    rcases List.mem_cons.mp hd with rfl | hd
    · exact hc
    · exact all_takeWhile _ _ d hd
  have hparts := List.takeWhile_append_dropWhile (p := isDigit) (l := rest)
  have hnumber : ∀ k' text', Matches k' text' → text' <+: c :: rest →
      PieceClass.number.Matches text' := by
    intro k' text' h' hfront
    obtain ⟨more, rfl, -, hk'⟩ := h'.of_prefix hfront
    rw [hclasses, List.mem_singleton] at hk'
    exact hk' ▸ h'
  -- Unless a point and a digit follow, a number is no longer than its digits.
  have hplain : (∀ d more, rest.dropWhile isDigit = '.' :: d :: more → isDigit d = false) →
      (Piece.token (.number (String.ofList (c :: rest.takeWhile isDigit)))).Taken (c :: rest) := by
    intro hnone
    refine ⟨.number, rfl, ?_⟩
    rw [text_number]
    refine .of (.whole _ (List.cons_ne_nil _ _) hwhole) ?_ fun k' text' h' hfront => ?_
    · exact List.cons_prefix_cons.mpr ⟨rfl, List.takeWhile_prefix _⟩
    · rcases length_of_number (hnumber k' text' h' hfront) hfront with
        hle | ⟨d, more, places, hdrop, hd, -, -⟩
      · exact hle
      · rw [hnone d more hdrop] at hd
        cases hd
  unfold afterDigit
  dsimp only
  split
  · next d more hdrop =>
    split
    · next hd =>
      refine ⟨.number, rfl, ?_⟩
      rw [text_number]
      have hplaces : ∀ e ∈ d :: more.takeWhile isDigit, isDigit e := by
        intro e he
        rcases List.mem_cons.mp he with rfl | he
        · exact hd
        · exact all_takeWhile _ _ e he
      refine .of (.fraction _ _ (List.cons_ne_nil _ _) hwhole (List.cons_ne_nil _ _) hplaces) ?_
        fun k' text' h' hfront => ?_
      · refine List.cons_prefix_cons.mpr ⟨rfl, ?_⟩
        rw [hdrop] at hparts
        refine ⟨more.dropWhile isDigit, ?_⟩
        simpa [List.takeWhile_append_dropWhile] using hparts
      · rcases length_of_number (hnumber k' text' h' hfront) hfront with
          hle | ⟨e, more', places, hdrop', -, hshort, rfl⟩
        · exact Nat.le_trans hle (by simp)
        · rw [hdrop] at hdrop'
          cases hdrop'
          have := hshort.length_le
          simp only [List.length_append, List.length_cons]
          omega
    · next hd =>
      refine hplain fun e more' hdrop' => ?_
      rw [hdrop] at hdrop'
      cases hdrop'
      exact Bool.eq_false_iff.mpr hd
  · next hnone => exact hplain fun d more hdrop => absurd hdrop (hnone d more)

/-- Keywords are words as well. -/
theorem class?_ofWord (cs : List Char) : (Piece.ofWord cs).class? = some .word := by
  unfold Piece.ofWord
  dsimp only
  split <;> rfl

theorem taken_of_class? {p : Piece} (hk : p.class? = some k) (h : k.Longest p.text ahead) :
    p.Taken ahead := by
  cases p with
  | unexpected c => cases hk
  | unterminated body => cases hk
  | _ => exact ⟨k, hk, h⟩

/-- A word goes on as long as it can. -/
theorem taken_afterNameStart (hc : isNameStart c) (hclasses : classesAt c = [.word]) :
    (afterNameStart c rest).1.Taken (c :: rest) := by
  refine taken_of_class? (class?_ofWord _) ?_
  unfold afterNameStart
  rw [text_ofWord]
  refine .of (.word c _ hc (all_takeWhile _ _)) ?_ fun k' text' h' hfront => ?_
  · exact List.cons_prefix_cons.mpr ⟨rfl, List.takeWhile_prefix _⟩
  · obtain ⟨more, rfl, hmore, hk'⟩ := h'.of_prefix hfront
    rw [hclasses, List.mem_singleton] at hk'
    subst hk'
    cases h' with
    | word c more hc h => exact Nat.succ_le_succ (prefix_takeWhile hmore h).length_le

/-- **What is taken at a place is the longest text of any class that starts there.** -/
theorem nextPiece_taken (c : Char) (rest : List Char) : (nextPiece c rest).1.Taken (c :: rest) := by
  unfold nextPiece
  split
  · next m h => exact taken_singleMark h
  next hsingle =>
  split
  · next short long h => exact taken_markPair h
  next hpair =>
  -- The cases are asked in the same order in which the classes are listed.
  have hclasses : classesAt c = if c = '/' then [.mark .slash, .comment]
      else if isBlank c then [.blank]
      else if c = '"' then [.string]
      else if isDigit c then [.number]
      else if isNameStart c then [.word]
      else [] := by
    unfold classesAt
    rw [hsingle, hpair]
  split
  · next h => exact h ▸ taken_afterSlash
  next hslash =>
  rw [if_neg hslash] at hclasses
  split
  · next h => exact taken_blank h (hclasses.trans (if_pos h))
  next hblank =>
  rw [if_neg hblank] at hclasses
  split
  · next h => exact h ▸ taken_afterQuote
  next hquote =>
  rw [if_neg hquote] at hclasses
  split
  · next h => exact taken_afterDigit h (hclasses.trans (if_pos h))
  next hdigit =>
  rw [if_neg hdigit] at hclasses
  split
  · next h => exact taken_afterNameStart h (hclasses.trans (if_pos h))
  next hname =>
  rw [if_neg hname] at hclasses
  refine ⟨hquote, ⟨rest, rfl⟩, fun k text h => ?_⟩
  have hk := h.mem_classesAt
  rw [hclasses] at hk
  cases hk

end Taking

/-!
## Keywords

Which words are keywords is decided by their whole text.
-/

/-- Identifiers are made of words that are no keywords. -/
theorem ofText?_of_nextPiece {c : Char} {rest : List Char} {x : String}
    (h : (nextPiece c rest).1 = .token (.identifier x)) : Keyword.ofText? x = none := by
  -- Only words become identifiers, and only those that are no keywords.
  unfold nextPiece at h
  split at h
  · cases h
  split at h
  · unfold markBeforeEqual at h
    split at h <;> cases h
  split at h
  · unfold afterSlash at h
    split at h <;> cases h
  split at h
  · cases h
  split at h
  · unfold afterQuote at h
    dsimp only at h
    split at h <;> cases h
  split at h
  · unfold afterDigit at h
    dsimp only at h
    split at h
    · split at h <;> cases h
    · cases h
  split at h
  · simp only [afterNameStart, Piece.ofWord] at h
    split at h
    · cases h
    · next hword =>
      cases h
      exact hword
  · cases h

/-- No keyword is left an identifier. -/
theorem ofText?_of_mem_pieces {cs : List Char} {x : String}
    (h : .token (.identifier x) ∈ pieces cs) : Keyword.ofText? x = none := by
  fun_induction pieces cs with
  | case1 => cases h
  | case2 c rest ih =>
    rcases List.mem_cons.mp h with h | h
    · exact ofText?_of_nextPiece h.symm
    · exact ih h

/-- Each keyword is read as itself. -/
theorem ofText?_text (k : Keyword) : Keyword.ofText? k.text = some k := by
  cases k <;> decide

/-- A word is a keyword exactly if its whole text is that of one. -/
theorem keyword_iff_of_mem_pieces {cs : List Char} {p : Piece} (hp : p ∈ pieces cs)
    (hclass : p.class? = some .word) :
    (∃ k, p = .token (.keyword k)) ↔ ∃ k : Keyword, p.text = k.text.toList := by
  constructor
  · rintro ⟨k, rfl⟩
    exact ⟨k, rfl⟩
  · rintro ⟨k, hk⟩
    cases p with
    | token kind =>
      cases kind with
      | keyword k => exact ⟨k, rfl⟩
      | identifier x =>
        obtain rfl : x = k.text := String.toList_injective hk
        -- An identifier with the text of a keyword would have been made a keyword.
        have hnone := ofText?_of_mem_pieces hp
        rw [ofText?_text] at hnone
        cases hnone
      | _ => cases hclass
    | _ => cases hclass

/-!
## Whole sources

By induction on the pieces: each was cut at its own place, with the rest of the source ahead.
-/

/-- No character is lost or added. -/
theorem text_pieces (cs : List Char) : (pieces cs).flatMap Piece.text = cs := by
  fun_induction pieces cs with
  | case1 => rfl
  | case2 c rest ih => rw [List.flatMap_cons, ih, text_nextPiece]

/-- Each piece is the longest one at its place. -/
theorem taken_of_pieces {cs : List Char} {before after : List Piece} {p : Piece}
    (h : pieces cs = before ++ p :: after) : p.Taken ((p :: after).flatMap Piece.text) := by
  fun_induction pieces cs generalizing before with
  | case1 => simp at h
  | case2 c rest ih =>
    cases before with
    | nil =>
      obtain ⟨rfl, rfl⟩ := List.cons.inj h
      rw [List.flatMap_cons, text_pieces, text_nextPiece]
      exact nextPiece_taken c rest
    | cons q before => exact ih (List.cons.inj h).2

/-- Nothing is taken where nothing is ahead. -/
theorem not_taken_nil (p : Piece) : ¬p.Taken [] := by
  intro h
  cases p with
  | unexpected c =>
    obtain ⟨-, ⟨rest, hrest⟩, -⟩ := h
    cases hrest
  | unterminated body =>
    obtain ⟨hbody, -⟩ := h
    cases hbody
  | _ =>
    obtain ⟨k, -, hlongest⟩ := h
    exact hlongest.ofClass.ne_nil (List.prefix_nil.mp hlongest.isPrefix)

/-- What is behind a quotation mark without a partner is part of that piece. -/
theorem eq_nil_of_unterminated {cs body : List Char} {before after : List Piece}
    (h : pieces cs = before ++ .unterminated body :: after) : after = [] := by
  obtain ⟨htext, -⟩ := taken_of_pieces h
  have hnil : after.flatMap Piece.text = [] := by
    simpa [Piece.text] using htext
  cases after with
  | nil => rfl
  | cons p after =>
    rw [List.append_cons] at h
    have htaken := taken_of_pieces h
    rw [hnil] at htaken
    exact absurd htaken (not_taken_nil p)

/-- The fault that a piece is. -/
def Piece.fault? : Piece → Option LexicalError
  | unexpected c => some (.unexpectedCharacter c)
  | unterminated _ => some .unterminatedString
  | _ => none

/-- The token that a piece is. -/
def Piece.kind? : Piece → Option TokenKind
  | token kind => some kind
  | _ => none

/-- Tokens are the pieces that are tokens, in order. -/
theorem kinds_ofPieces (line : Nat) (ps : List Piece) :
    (Lexed.ofPieces line ps).tokens.map (·.kind) = ps.filterMap Piece.kind? := by
  induction ps generalizing line with
  | nil => rfl
  | cons p ps ih =>
    cases p with
    | token kind => exact congrArg (kind :: ·) (ih _)
    | _ => exact ih _

/-- Reports are those of the faults, in order. -/
theorem reports_ofPieces (line : Nat) (ps : List Piece) :
    ∃ lines, lines.length = (ps.filterMap Piece.fault?).length ∧
      (Lexed.ofPieces line ps).reports =
        List.zipWith Report.lexical lines (ps.filterMap Piece.fault?) := by
  induction ps generalizing line with
  | nil => exact ⟨[], rfl, rfl⟩
  | cons p ps ih =>
    obtain ⟨lines, hlength, hreports⟩ := ih (line + p.lineBreaks)
    cases p with
    | unexpected c =>
      exact ⟨_ :: lines, congrArg Nat.succ hlength, congrArg (_ :: ·) hreports⟩
    | unterminated body =>
      exact ⟨_ :: lines, congrArg Nat.succ hlength, congrArg (_ :: ·) hreports⟩
    | _ => exact ⟨lines, hlength, hreports⟩

/-- **A source is cut by the longest match.** Its pieces make up the whole source. Each is the
longest prefix of what is ahead that belongs to a class, and of that class; where no class has a
prefix, a character alone, or a quotation mark and all behind it, is a fault. A word is a keyword
exactly if its whole text is one, and the value of a string is what stands between its quotation
marks. The tokens are those among the pieces, with one end behind them, and there is one report for
each fault and no other. -/
theorem lex_takes_longest (source : String) :
    (pieces source.toList).flatMap Piece.text = source.toList ∧
    (∀ before p after, pieces source.toList = before ++ p :: after →
      p.Taken ((p :: after).flatMap Piece.text)) ∧
    (∀ p ∈ pieces source.toList, p.class? = some .word →
      ((∃ k, p = .token (.keyword k)) ↔ ∃ k : Keyword, p.text = k.text.toList)) ∧
    (∀ p ∈ pieces source.toList, p.class? = some .string → ∃ content : String,
      p = .token (.string content) ∧ p.text = '"' :: (content.toList ++ ['"']) ∧
        TokenKind.literal? (.string content) = some (.string content)) ∧
    (∀ before body after, pieces source.toList = before ++ .unterminated body :: after →
      after = []) ∧
    (lex source).tokens.map (·.kind) = (pieces source.toList).filterMap Piece.kind? ∧
    (lex source).locations = (lex source).tokens.map .token ++ [.endOfSource (lex source).endLine] ∧
    ∃ lines, lines.length = ((pieces source.toList).filterMap Piece.fault?).length ∧
      (lex source).reports =
        List.zipWith Report.lexical lines ((pieces source.toList).filterMap Piece.fault?) := by
  refine ⟨text_pieces _, fun _ _ _ => taken_of_pieces, fun _ => keyword_iff_of_mem_pieces, ?_,
    fun _ _ _ => eq_nil_of_unterminated, kinds_ofPieces 1 _, rfl, reports_ofPieces 1 _⟩
  -- Only the class of strings is left, and a piece of it is a string token.
  intro p _ hclass
  cases p with
  | token kind =>
    cases kind with
    | string content => exact ⟨content, rfl, by simp [Piece.text, TokenKind.lexeme], rfl⟩
    | _ => cases hclass
  | _ => cases hclass

end LoxLang
