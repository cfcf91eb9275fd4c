import LoxLang.Proofs.Joining.Reading

/-!
# Lines of a source

Lines are counted while a source is cut, over its pieces. Said without counting: a token is on the
line on which its text ends, so its number is one more than the number of line breaks up to there;
and what stands behind a line break is cut as it is alone, its lines raised by the line breaks in
front of it.
-/

namespace LoxLang

/-! ## Later lines -/

/-- The same token some lines later. -/
def Token.later (k : Nat) (t : Token) : Token := { t with line := t.line + k }

/-- The same place some lines later. -/
def Location.later (k : Nat) : Location → Location
  | token t => token (t.later k)
  | endOfSource line => endOfSource (line + k)

/-- The same report some lines later. -/
def Report.later (k : Nat) : Report → Report
  | lexical line e => lexical (line + k) e
  | located place e => located (place.later k) e

/-- The same tokens and reports some lines later. -/
def Lexed.later (k : Nat) (l : Lexed) : Lexed :=
  ⟨l.tokens.map (·.later k), l.endLine + k, l.reports.map (·.later k)⟩

namespace Lexed

theorem later_cons (k : Nat) (p : Piece) (line : Nat) (l : Lexed) :
    (cons p line l).later k = cons p (line + k) (l.later k) := by
  cases p <;> rfl

/-- Pieces do not remember on which line they start. -/
theorem ofPieces_later (line k : Nat) (ps : List Piece) :
    ofPieces (line + k) ps = (ofPieces line ps).later k := by
  induction ps generalizing line with
  | nil => rfl
  | cons p ps ih => rw [ofPieces, ofPieces, later_cons, ← ih, Nat.add_right_comm]

theorem locations_followedBy (l l' : Lexed) :
    (l.followedBy l').locations = l.tokens.map .token ++ l'.locations := by
  simp only [locations, followedBy, endLocation, List.map_append, List.append_assoc]

theorem locations_later (k : Nat) (l : Lexed) :
    (l.later k).locations = l.locations.map (·.later k) := by
  simp only [locations, later, endLocation, List.map_append, List.map_map]
  rfl

/-!
## Positions

A text is cut where a piece begins. Each token and each report stands on the line that the text
before it ends on, so lines depend on what comes before by a number only.
-/

/-- The last line, counted from the first. -/
theorem endLine_ofPieces (line : Nat) (ps : List Piece) :
    (ofPieces line ps).endLine = line + (ps.flatMap Piece.text).count '\n' := by
  induction ps generalizing line with
  | nil => rfl
  | cons p ps ih =>
    rw [ofPieces, endLine_cons, ih, List.flatMap_cons, List.count_append, ← Nat.add_assoc]
    rfl

end Lexed

theorem endLine_lex (source : String) : (lex source).endLine = 1 + source.toList.count '\n' := by
  rw [lex, Lexed.endLine_ofPieces, text_pieces]

/-- A piece of a source, with all the text in front of it. -/
structure Cut where
  before : List Char
  piece : Piece

namespace Cut

/-- Pieces with the text in front of each, where the first stands behind `before`. -/
def all (before : List Char) : List Piece → List Cut
  | [] => []
  | p :: ps => ⟨before, p⟩ :: all (before ++ p.text) ps

/-- The pieces of a source, each with the text in front of it. -/
def ofSource (source : String) : List Cut := all [] (pieces source.toList)

/-- The token that a piece is. It is on the line on which its text ends. -/
def token? (cut : Cut) : Option Token :=
  cut.piece.kind?.map fun kind => ⟨kind, 1 + (cut.before ++ kind.lexeme.toList).count '\n'⟩

/-- The report on a piece that is a fault. What has no end is reported at the end of the source. -/
def report? (source : List Char) (cut : Cut) : Option Report :=
  cut.piece.fault?.map fun e =>
    .lexical (1 + (if e = .unterminatedString then source else cut.before).count '\n') e

theorem exists_of_mem_all {before : List Char} {ps : List Piece} {cut : Cut}
    (h : cut ∈ all before ps) :
    ∃ after, before ++ ps.flatMap Piece.text = cut.before ++ cut.piece.text ++ after := by
  induction ps generalizing before with
  | nil => cases h
  | cons p ps ih =>
    rw [List.flatMap_cons, ← List.append_assoc]
    cases h with
    | head => exact ⟨_, rfl⟩
    | tail _ h => exact ih h

theorem tokens_ofPieces (before : List Char) (ps : List Piece) :
    (Lexed.ofPieces (1 + before.count '\n') ps).tokens = (all before ps).filterMap token? := by
  induction ps generalizing before with
  | nil => rfl
  | cons p ps ih =>
    have hline : 1 + before.count '\n' + p.lineBreaks = 1 + (before ++ p.text).count '\n' := by
      rw [List.count_append, ← Nat.add_assoc, Piece.lineBreaks]
    rw [Lexed.ofPieces, hline]
    cases p with
    | token kind => exact congrArg (_ :: ·) (ih _)
    | _ => exact ih _

/-- Reports are on the line on which a piece ends. For a character that is where it begins, and for
a string without an end it is the end of the whole. -/
theorem reports_ofPieces (before : List Char) {ps : List Piece}
    (hplain : ∀ c, .unexpected c ∈ ps → c ≠ '\n')
    (hlast : ∀ front body more, ps = front ++ .unterminated body :: more → more = []) :
    (Lexed.ofPieces (1 + before.count '\n') ps).reports =
      (all before ps).filterMap (report? (before ++ ps.flatMap Piece.text)) := by
  induction ps generalizing before with
  | nil => rfl
  | cons p ps ih =>
    have hline : 1 + before.count '\n' + p.lineBreaks = 1 + (before ++ p.text).count '\n' := by
      rw [List.count_append, ← Nat.add_assoc, Piece.lineBreaks]
    have hrest := ih (before ++ p.text) (fun c hc => hplain c (.tail p hc))
      fun front body more h => hlast (p :: front) body more (congrArg (p :: ·) h)
    rw [List.append_assoc, ← List.flatMap_cons] at hrest
    rw [Lexed.ofPieces, hline]
    -- A report says where its piece ends, and an unexpected character is no line break.
    cases p with
    | unexpected c =>
      have hc : 1 + (before ++ [c]).count '\n' = 1 + before.count '\n' := by
        simp [hplain c (.head ps)]
      rw [show (Piece.unexpected c).text = [c] from rfl, hc] at hrest ⊢
      exact congrArg (_ :: ·) hrest
    | unterminated body =>
      obtain rfl := hlast [] body ps rfl
      simp [Lexed.cons, Lexed.ofPieces, all, report?, Piece.fault?]
    | _ => exact hrest

end Cut

theorem ne_newline_of_unexpected {cs : List Char} {c : Char} (h : .unexpected c ∈ pieces cs) :
    c ≠ '\n' := by
  rintro rfl
  obtain ⟨before, after, hpieces⟩ := List.append_of_mem h
  obtain ⟨-, -, hnone⟩ := taken_of_pieces hpieces
  exact hnone .blank [] (.blank '\n' rfl)

theorem unterminated_not_mem {line : Nat} {ps : List Piece}
    (h : ∀ line', .lexical line' .unterminatedString ∉ (Lexed.ofPieces line ps).reports)
    (body : List Char) : .unterminated body ∉ ps := by
  induction ps generalizing line with
  | nil => exact List.not_mem_nil
  | cons p ps ih =>
    intro hmem
    rw [Lexed.ofPieces] at h
    cases hmem with
    | head => exact h _ (.head _)
    | tail _ hmem =>
      refine @ih (line + p.lineBreaks) (fun line' hline' => h line' ?_) hmem
      cases p with
      | unexpected c => exact .tail _ hline'
      | unterminated body => exact .tail _ hline'
      | _ => exact hline'

/-!
## Texts behind others

A line break joins two texts without joining any of their tokens. What stands behind it does not
tell whether a text was in front, or as many line breaks only.
-/

/-- If no string of the first text is unterminated, then what is behind the line break is scanned as
it is alone, later by the lines of the first. -/
theorem lex_join {first : String} (h : ∀ body, .unterminated body ∉ pieces first.toList)
    (second : String) :
    lex (first ++ "\n" ++ second) =
      (lex first).followedBy ((lex second).later (lex first).endLine) := by
  rw [lex_followedBy h, Nat.add_comm, Lexed.ofPieces_later]
  rfl

/-- A source text that begins some lines later: line breaks, and then the text. -/
def sourceLater (k : Nat) (source : String) : String :=
  String.ofList (List.replicate k '\n') ++ source

theorem pieces_replicate_append (k : Nat) (cs : List Char) :
    pieces (List.replicate k '\n' ++ cs) = List.replicate k (.blank '\n') ++ pieces cs := by
  induction k with
  | zero => rfl
  | succ k ih =>
    rw [List.replicate_succ, List.cons_append, pieces, List.replicate_succ, List.cons_append]
    exact congrArg (Piece.blank '\n' :: ·) ih

theorem Lexed.ofPieces_replicate_append (line k : Nat) (ps : List Piece) :
    ofPieces line (List.replicate k (.blank '\n') ++ ps) = ofPieces (line + k) ps := by
  induction k generalizing line with
  | zero => rfl
  | succ k ih =>
    rw [List.replicate_succ, List.cons_append, ofPieces, ih, Nat.add_right_comm, Nat.add_assoc]
    rfl

/-- Line breaks in front of a text do nothing but make it later. -/
theorem lex_sourceLater (k : Nat) (source : String) :
    lex (sourceLater k source) = (lex source).later k := by
  rw [lex, sourceLater, String.toList_append, String.toList_ofList, pieces_replicate_append,
    Lexed.ofPieces_replicate_append, Lexed.ofPieces_later]
  rfl

/-- **Scanning goes line by line, with exact positions.** If no string of the first text is
unterminated, then what is scanned in two texts with a line break in between is what is scanned in
the first, without its end, followed by what is scanned in the second, raised by one more than the
line breaks of the first; and so are the reports. In every source, a token is on the line on which
its text ends, an unexpected character is reported on its own line, and an unterminated string and
the end of the source are on the last line. -/
theorem lex_by_lines (source : String) :
    ((∀ line, .lexical line .unterminatedString ∉ (lex source).reports) → ∀ second,
      (lex (source ++ "\n" ++ second)).locations =
        (lex source).tokens.map .token ++
          (lex second).locations.map (·.later (1 + source.toList.count '\n')) ∧
      (lex (source ++ "\n" ++ second)).reports =
        (lex source).reports ++
          (lex second).reports.map (·.later (1 + source.toList.count '\n'))) ∧
    (∀ cut ∈ Cut.ofSource source, ∃ after,
      source.toList = cut.before ++ cut.piece.text ++ after) ∧
    (lex source).locations =
      ((Cut.ofSource source).filterMap Cut.token?).map .token ++
        [.endOfSource (1 + source.toList.count '\n')] ∧
    (lex source).reports = (Cut.ofSource source).filterMap (Cut.report? source.toList) := by
  refine ⟨fun hterminated second => ?lines, fun cut hcut => ?cuts, ?tokens, ?reports⟩
  case lines =>
    rw [lex_join (unterminated_not_mem hterminated), endLine_lex]
    exact ⟨by rw [Lexed.locations_followedBy, Lexed.locations_later], rfl⟩
  case cuts =>
    obtain ⟨after, hafter⟩ := Cut.exists_of_mem_all hcut
    rw [text_pieces] at hafter
    exact ⟨after, hafter⟩
  case tokens =>
    have htokens : (lex source).tokens = _ := Cut.tokens_ofPieces [] (pieces source.toList)
    rw [Lexed.locations, htokens, Lexed.endLocation, endLine_lex]
    rfl
  case reports =>
    have hreports : (lex source).reports = _ := Cut.reports_ofPieces []
      (fun c => ne_newline_of_unexpected) fun front body more => eq_nil_of_unterminated
    -- Only the last piece can be an unterminated string, so it is reported at the end.
    rw [hreports, List.nil_append, text_pieces]
    rfl

/-- A string over two lines, a character that is none of the language's, and a line behind them. -/
theorem lex_by_lines_string :
    (lex ("\"a\nb\" @" ++ "\n" ++ "c")).locations =
        [.token ⟨.string "a\nb", 2⟩, .token ⟨.identifier "c", 3⟩, .endOfSource 3] ∧
      (lex ("\"a\nb\" @" ++ "\n" ++ "c")).reports =
        [.lexical 2 (.unexpectedCharacter '@')] := by
  have hreports : (lex "\"a\nb\" @").reports = [.lexical 2 (.unexpectedCharacter '@')] := by
    decide +kernel
  obtain ⟨hlines, -⟩ := lex_by_lines "\"a\nb\" @"
  obtain ⟨hlocations, hboth⟩ := hlines (by simp [hreports]) "c"
  rw [hlocations, hboth]
  decide +kernel

end LoxLang
