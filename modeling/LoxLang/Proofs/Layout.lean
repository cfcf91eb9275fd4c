import LoxLang.Proofs.Correspondence.Sessions
import LoxLang.Proofs.Printing
import LoxLang.Proofs.Scoping.Source

/-!
# Layout

Between tokens, white space and comments can be put in any way, as long as some white space stands
behind each token. A source that is laid out anew is cut into the same tokens (`pieces_laidOut`), so
that nothing is told apart that looks at tokens only: parsing, resolving and running see at most the
lines.
-/

namespace LoxLang

/-!
## What stands between tokens

Between two tokens, at least one blank, then blanks and comments as many as one likes. A comment
goes to the end of its line, so a line break must follow.
-/

/-- What can be put between tokens behind the white space that ends a token: more of it, or a
comment with the line break that ends it. -/
inductive Gap where
  | blank (c : Char) (h : isBlank c)
  | comment (body : List Char) (h : '\n' ∉ body)

namespace Gap

/-- The text of a gap. -/
def text : Gap → List Char
  | blank c _ => [c]
  | comment body _ => '/' :: '/' :: (body ++ ['\n'])

/-- The pieces that a gap is cut into. -/
def pieces : Gap → List Piece
  | blank c _ => [.blank c]
  | comment body _ => [.comment body, .blank '\n']

end Gap

/-- What separates tokens: white space, and any gaps behind it. -/
structure Separator where
  first : Char
  isBlank_first : isBlank first
  more : List Gap

namespace Separator

/-- The text of a separator. -/
def text (sep : Separator) : List Char := sep.first :: sep.more.flatMap Gap.text

/-- The pieces that a separator is cut into. -/
def pieces (sep : Separator) : List Piece := .blank sep.first :: sep.more.flatMap Gap.pieces

end Separator

/-- Tokens, each with what separates it from the next. -/
abbrev Layout := List (TokenKind × Separator)

namespace Layout

/-- The tokens of a layout. -/
def kinds (layout : Layout) : List TokenKind := layout.map Prod.fst

/-- The source text that a layout is. -/
def source (layout : Layout) : String :=
  String.ofList (layout.flatMap fun entry => entry.1.lexeme.toList ++ entry.2.text)

end Layout

/-!
## Cutting a layout

Gaps give blanks and comments, which are no tokens, and no token runs on into the gap behind it.
-/

section Cutting

variable {cs : List Char}

theorem pieces_blank {c : Char} (h : isBlank c) : pieces (c :: cs) = .blank c :: pieces cs := by
  have hpiece : nextPiece c cs = (.blank c, cs) := by
    simp only [isBlank, Bool.or_eq_true, decide_eq_true_eq] at h
    obtain ((rfl | rfl) | rfl) | rfl := h <;> rfl
  rw [pieces, hpiece]

/-- A comment ends before its line break, which is a piece of its own. -/
theorem pieces_comment {body : List Char} (h : '\n' ∉ body) :
    pieces ('/' :: '/' :: (body ++ '\n' :: cs)) = .comment body :: .blank '\n' :: pieces cs := by
  have hbody : ∀ c ∈ body, (c ≠ '\n' : Bool) = true := fun c hc => by
    simpa using fun hn : c = '\n' => h (hn ▸ hc)
  have hpiece : nextPiece '/' ('/' :: (body ++ '\n' :: cs)) = (.comment body, '\n' :: cs) := by
    show (Piece.comment ((body ++ '\n' :: cs).takeWhile (· ≠ '\n')),
      (body ++ '\n' :: cs).dropWhile (· ≠ '\n')) = _
    rw [List.takeWhile_append_of_pos hbody, List.dropWhile_append_of_pos hbody]
    simp
  rw [pieces, hpiece, pieces_blank rfl]

theorem pieces_gap (gap : Gap) : pieces (gap.text ++ cs) = gap.pieces ++ pieces cs := by
  cases gap with
  | blank c h => exact pieces_blank h
  | comment body h =>
    rw [Gap.text, List.cons_append, List.cons_append, List.append_assoc]
    exact pieces_comment h

theorem pieces_gaps (gaps : List Gap) :
    pieces (gaps.flatMap Gap.text ++ cs) = gaps.flatMap Gap.pieces ++ pieces cs := by
  induction gaps with
  | nil => rfl
  | cons gap gaps ih =>
    rw [List.flatMap_cons, List.append_assoc, pieces_gap, ih, List.flatMap_cons, List.append_assoc]

/-- A token ends where its separator begins, and what follows is cut as if nothing stood before. -/
theorem pieces_separated {kind : TokenKind} (h : kind.Proper) (sep : Separator) :
    pieces (kind.lexeme.toList ++ sep.text ++ cs) =
      .token kind :: (sep.pieces ++ pieces cs) := by
  have hspace : SpaceAhead (sep.text ++ cs) := fun c hc => Option.some.inj hc ▸ sep.isBlank_first
  obtain ⟨c, rest, hcs, hpiece⟩ := nextPiece_lexeme h hspace
  rw [List.append_assoc, hcs, List.cons_append, pieces, hpiece, Separator.text, Separator.pieces,
    List.cons_append, pieces_blank sep.isBlank_first, pieces_gaps, List.cons_append]

end Cutting

/-- The pieces of tokens and of what separates them. -/
def Layout.pieces (layout : Layout) : List Piece :=
  layout.flatMap fun entry => .token entry.1 :: entry.2.pieces

/-- A layout is cut into its tokens and the pieces of its separators. -/
theorem pieces_laidOut {layout : Layout} (h : ∀ kind ∈ layout.kinds, kind.Proper) :
    pieces layout.source.toList = layout.pieces := by
  rw [Layout.source, String.toList_ofList, Layout.pieces]
  induction layout with
  | nil => simp [pieces]
  | cons entry layout ih =>
    obtain ⟨hkind, hrest⟩ := List.forall_mem_cons.mp h
    rw [List.flatMap_cons, List.flatMap_cons, pieces_separated hkind, ih hrest, List.cons_append]

/-! ## What is seen of a layout -/

section Seen

variable {β : Type} {f : Piece → Option β} (hblank : ∀ c, f (.blank c) = none)
  (hcomment : ∀ body, f (.comment body) = none)
include hblank hcomment

theorem filterMap_gaps (gaps : List Gap) : (gaps.flatMap Gap.pieces).filterMap f = [] := by
  induction gaps with
  | nil => rfl
  | cons gap gaps ih =>
    rw [List.flatMap_cons, List.filterMap_append, ih, List.append_nil]
    cases gap with
    | blank c _ => simp [Gap.pieces, hblank]
    | comment body _ => simp [Gap.pieces, hblank, hcomment]

/-- Who does not look at white space and comments sees of a layout its tokens. -/
theorem Layout.filterMap_pieces (layout : Layout) :
    layout.pieces.filterMap f = layout.kinds.filterMap fun kind => f (.token kind) := by
  rw [Layout.pieces, Layout.kinds]
  induction layout with
  | nil => rfl
  | cons entry layout ih =>
    have hsep : entry.2.pieces.filterMap f = [] := by
      rw [Separator.pieces, List.filterMap_cons_none (hblank _), filterMap_gaps hblank hcomment]
    rw [List.flatMap_cons, List.cons_append, List.map_cons, List.filterMap_cons,
      List.filterMap_append, hsep, List.nil_append, ih, List.filterMap_cons]

end Seen

/-- **A layout is cut into its tokens**, without a report. -/
theorem lex_laidOut {layout : Layout} (h : ∀ kind ∈ layout.kinds, kind.Proper) :
    (lex layout.source).tokens.map (·.kind) = layout.kinds ∧ (lex layout.source).reports = [] := by
  obtain ⟨lines, -, hreports⟩ := reports_ofPieces 1 (pieces layout.source.toList)
  have hkinds := kinds_ofPieces 1 (pieces layout.source.toList)
  rw [pieces_laidOut h, Layout.filterMap_pieces (fun _ => rfl) fun _ => rfl] at hreports hkinds
  rw [lex, pieces_laidOut h, hkinds, hreports]
  constructor
  · exact List.filterMap_some
  · rw [show (fun kind => (Piece.token kind).fault?) = fun _ => none from rfl]
    simp

/-!
## Reading and running

Two layouts have the same tokens but for lines, so what is parsed, resolved and executed corresponds
in all but lines.
-/

/-- Lines do not count, and numbers of uses are the same. -/
def Correspondence.anyLine : Correspondence := ⟨fun _ _ => True, Eq⟩

theorem Correspondence.anyLine_oneToOne : anyLine.OneToOne := by
  rintro i _ j _ rfl rfl
  exact Iff.rfl

theorem Correspondence.anyLine_fixes (os : List Occurrence) : anyLine.Fixes os :=
  ⟨fun _ => trivial, fun _ _ => rfl⟩

theorem Closure.corresponds_anyLine (c : Closure) : c.Corresponds .anyLine c where
  name := rfl
  params := (Correspondence.anyLine_fixes []).names c.params
  body := stmts_corresponds_self c.body (Correspondence.anyLine_fixes (stmtsOccurrences [] c.body))
  frame := rfl
  isInitializer := rfl

theorem Session.corresponds_anyLine (s : Session) : s.Corresponds .anyLine s := by
  refine ⟨⟨rfl, ⟨rfl, ?functions⟩, ⟨rfl, ?classes⟩, rfl, rfl, ?_, rfl, rfl⟩, fun _ => rfl, rfl, rfl⟩
  case functions =>
    intro i c c' hc hc'
    obtain rfl := Option.some.inj (hc.symm.trans hc')
    exact c.corresponds_anyLine
  case classes =>
    intro i info info' hinfo hinfo'
    obtain rfl := Option.some.inj (hinfo.symm.trans hinfo')
    exact ⟨rfl, rfl, List.forall₂_same.mpr fun b _ => ⟨rfl, b.2.corresponds_anyLine⟩, rfl⟩
  rintro i _ rfl
  rfl

/-- Sources without faults whose tokens are of the same kinds. -/
theorem Lexed.corresponds_of_kinds {l l' : Lexed} (h : l.reports = []) (h' : l'.reports = [])
    (hkinds : l.tokens.map (·.kind) = l'.tokens.map (·.kind)) : l.Corresponds .anyLine l' := by
  refine ⟨?_, by rw [h, h']; exact .nil, trivial⟩
  rw [← List.forall₂_eq_eq_eq, List.forall₂_map_left_iff, List.forall₂_map_right_iff] at hkinds
  exact hkinds.imp fun t t' hkind => ⟨hkind, trivial⟩

/-- What is read off the kinds of tokens only is the same at the end of a source as well. -/
theorem Lexed.map_locations {β : Type} {f : Location → β} (ofKind : TokenKind → β)
    (htoken : ∀ t, f (.token t) = ofKind t.kind)
    (hend : ∀ n n', f (.endOfSource n) = f (.endOfSource n')) {l l' : Lexed}
    (hkinds : l.tokens.map (·.kind) = l'.tokens.map (·.kind)) :
    l.locations.map f = l'.locations.map f := by
  have hmap (l : Lexed) : l.locations.map f =
      (l.tokens.map (·.kind)).map ofKind ++ [f (.endOfSource l.endLine)] := by
    simp [locations, endLocation, htoken]
  rw [hmap, hmap, hkinds, hend l.endLine l'.endLine]

/-- **Layout between tokens is irrelevant.** Let the tokens of a source without lexical errors be
laid out anew, with any separator behind each. Then the new text has no lexical errors, and its
tokens are of the same types, lexemes and values, with one end behind them. So, up to lines, it is
parsed to the same tree with the same reports, and in every session it is run to the same end: it
prints the same, and leaves the same session behind. -/
theorem layout_irrelevant (host : Host) (depth : Nat) (s : Session) (source : String)
    (hsource : (lex source).reports = []) (layout : Layout)
    (hkinds : layout.kinds = (lex source).tokens.map (·.kind)) :
    (lex layout.source).reports = [] ∧
    (lex layout.source).locations.map Location.label =
      (lex source).locations.map Location.label ∧
    (lex layout.source).locations.map Location.lexeme =
      (lex source).locations.map Location.lexeme ∧
    (lex layout.source).locations.map Location.literal? =
      (lex source).locations.map Location.literal? ∧
    (parse depth s.nextUse (lex source)).Corresponds .anyLine
      (parse depth s.nextUse (lex layout.source)) ∧
    (s.run host depth layout.source).1.output = (s.run host depth source).1.output ∧
    (s.run host depth source).1.Corresponds .anyLine (s.run host depth layout.source).1 ∧
    (s.run host depth source).2.Corresponds .anyLine (s.run host depth layout.source).2 := by
  have hproper : ∀ kind ∈ layout.kinds, kind.Proper := by
    rw [hkinds]
    refine List.forall_mem_map.mpr fun t ht => ?_
    exact proper_of_mem_pieces (mem_of_mem_ofPieces ht)
  -- The pieces of a layout are the tokens of the source, with other lines.
  obtain ⟨hsame, hclean⟩ := lex_laidOut hproper
  rw [hkinds] at hsame
  have hlexed := Lexed.corresponds_of_kinds hsource hclean hsame.symm
  obtain ⟨htranscript, hbehind⟩ := s.corresponds_anyLine.run_of_lexed host depth
    Correspondence.anyLine_oneToOne hlexed
  refine ⟨hclean, ?_, ?_, ?_, parse_corresponds depth hlexed fun _ => rfl,
    htranscript.output.symm, htranscript, hbehind⟩
  · exact Lexed.map_locations TokenKind.label (fun _ => rfl) (fun _ _ => rfl) hsame
  · exact Lexed.map_locations TokenKind.lexeme (fun _ => rfl) (fun _ _ => rfl) hsame
  · exact Lexed.map_locations TokenKind.literal? (fun _ => rfl) (fun _ _ => rfl) hsame

/-- A slash before a comment, a number before a point, and a string over two lines. -/
theorem layout_irrelevant_comments :
    let host : Host := ⟨fun _ => 0, 100⟩
    let space : Separator := ⟨' ', rfl, []⟩
    let remark : Separator := ⟨'\t', rfl, [.comment ['/', ' ', '"'] (by decide), .blank '\r' rfl]⟩
    let layout : Layout := [(.keyword .print, space), (.number "4", remark), (.mark .slash, remark),
      (.number "0.5", space), (.mark .semicolon, ⟨'\n', rfl, []⟩), (.keyword .print, remark),
      (.string "a\nb", remark), (.mark .semicolon, remark)]
    layout.source = "print 4\t/// \"\n\r/\t/// \"\n\r0.5 ;\nprint\t/// \"\n\r" ++
      "\"a\nb\"\t/// \"\n\r;\t/// \"\n\r" ∧
    (lex layout.source).reports = [] ∧
    (Session.initial.run host 40 layout.source).1.output = "8\na\nb\n" := by
  intro host space remark layout
  -- The same tokens, written with no more space than they need.
  have hsource : (lex "print 4/0.5;print\"a\nb\";").reports = [] := by decide +kernel
  have hkinds : layout.kinds = (lex "print 4/0.5;print\"a\nb\";").tokens.map (·.kind) := by
    decide +kernel
  have houtput : (Session.initial.run host 40 "print 4/0.5;print\"a\nb\";").1.output =
      "8\na\nb\n" := by decide +kernel
  obtain ⟨hclean, -, -, -, -, hsame, -⟩ :=
    layout_irrelevant host 40 .initial _ hsource layout hkinds
  exact ⟨by decide +kernel, hclean, hsame.trans houtput⟩

end LoxLang
