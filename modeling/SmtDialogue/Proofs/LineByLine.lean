import SmtDialogue.Proofs.Grouping
import SmtDialogue.Proofs.Phrases

/-!
# Lines read one after the other

A text is complete when the line break behind it leaves nothing begun, so it is read in
the same way whatever stands on the lines below. Phrases are complete, with a comment
behind them too, and so is every text that can be read alone.
-/

namespace SmtDialogue

open Lexeme (cut passed tokens finish)
open SExpr (Frames Feeds Placed reach)

namespace SExpr

theorem none_notMem_of_reach {frames inner : Frames} {ts : List (Option Token)} {es : List SExpr}
    (read : reach frames ts = some (es, inner)) : none ∉ ts := by
  intro member
  obtain ⟨before, after, rfl⟩ := List.append_of_mem member
  rw [reach_append] at read
  obtain ⟨r, _, read⟩ := Option.bind_eq_some_iff.mp read
  simp [reach] at read

end SExpr

/-- What ends well where the text ends stands inside neither a string nor a quoted symbol. -/
theorem Group.ofMode_eq_nothing {mode : LexMode} (sound : none ∉ tokens (finish mode)) :
    Inside.ofMode mode = .nothing := by
  cases mode <;> simp_all [finish, Token.sound?, Inside.ofMode]

/-- With a line break behind it the text is these expressions, whatever comes below. -/
def Complete (cs : List Char) (es : List SExpr) : Prop :=
  ∀ rest, ∃ ts, cut .blank (cs ++ '\n' :: rest) = ts ++ cut .blank rest ∧
    reach [] ts = some (es, [])

namespace Complete

variable {cs ds : List Char} {es fs : List SExpr}

/-- A text that can be read alone. -/
theorem of_parseAll {text : String} (read : SExpr.parseAll text = .ok es) :
    Complete text.toList es := by
  have read := SExpr.parseAll_eq_ok.mp read
  have sound := SExpr.none_notMem_of_reach read
  rw [Lexeme.cut_eq, List.mem_append, not_or] at sound
  intro rest
  refine ⟨_, ?_, read⟩
  rw [Lexeme.cut_append, Group.cut_newline (Group.ofMode_eq_nothing sound.2),
    Lexeme.cut_eq .blank text.toList, List.append_assoc]

/-- A comment on a line of its own. -/
theorem comment (line : '\n' ∉ cs) : Complete (';' :: cs) [] := by
  intro rest
  obtain ⟨inside, nothing⟩ := Group.after_comment line
  refine ⟨[], ?_, rfl⟩
  rw [List.cons_append, Lexeme.cut_cons, Group.step_comment, Lexeme.cut_append, inside, nothing,
    Group.cut_newline rfl]
  rfl

end Complete

theorem SExpr.reach_of_feeds {frames : Frames} {ls : List Lexeme} {e : SExpr}
    (feeds : Feeds frames ls (.outside e)) : reach frames (tokens ls) = some ([e], []) := by
  generalize state : Placed.outside e = q at feeds
  induction feeds with
  | nil frames => cases state
  | inside taken _ ih => simp [reach_cons, taken, ih state]
  | outside taken =>
    cases state
    simp [reach_cons, taken, reach]

namespace Phrase

variable {cs : List Char} {e : SExpr}

/-- What is cut from a phrase is read as its expression. -/
theorem cut_append (phrase : Phrase cs e) {rest : List Char} (ends : Spelling.Ends rest) :
    ∃ ts, cut .blank (cs ++ rest) = ts ++ cut .blank rest ∧ reach [] ts = some ([e], []) := by
  obtain ⟨_, scans, feeds⟩ := phrase ends
  obtain ⟨ls, stop, rfl, scanned⟩ := scans 0
  refine ⟨tokens ls, ?_, SExpr.reach_of_feeds (feeds [] rfl)⟩
  rw [cut, scanned, Lexeme.tokens_append, Lexeme.tokens_scan rfl]

/-- A phrase on lines of its own. -/
theorem complete (phrase : Phrase cs e) : Complete cs [e] := by
  intro rest
  have ends : Spelling.Ends ('\n' :: rest) := by
    simp [Spelling.Ends, Lexeme.endsWord, Text.isAsciiBlank]
  obtain ⟨ts, same, read⟩ := phrase.cut_append ends
  refine ⟨ts, ?_, read⟩
  rw [same, Group.cut_newline rfl]
  rfl

/-- A phrase with a comment behind it. -/
theorem complete_comment (phrase : Phrase cs e) {note : List Char} (line : '\n' ∉ note) :
    Complete (cs ++ ' ' :: ';' :: note) [e] := by
  intro rest
  obtain ⟨ts, same, read⟩ := phrase.cut_append (Spelling.ends_blank (';' :: note ++ '\n' :: rest))
  obtain ⟨us, same', read'⟩ := Complete.comment line rest
  have blank : cut .blank (' ' :: (';' :: note ++ '\n' :: rest)) =
      cut .blank (';' :: note ++ '\n' :: rest) := by
    simp [Lexeme.cut_cons, Lexeme.step, Lexeme.begin, Text.isAsciiBlank]
  refine ⟨ts ++ us, ?_, ?_⟩
  · rw [List.append_assoc]
    exact same.trans (by rw [blank, same', List.append_assoc])
  · rw [SExpr.reach_append, read]
    simp [read']

end Phrase

/-- The lines, each ended, are these expressions, whatever stands below. -/
def Lines (lines : List String) (es : List SExpr) : Prop :=
  ∀ rest, ∃ ts, cut .blank (lines.flatMap (fun l => l.toList ++ ['\n']) ++ rest) =
    ts ++ cut .blank rest ∧ reach [] ts = some (es, [])

namespace Lines

variable {lines below : List String} {es fs : List SExpr}

theorem nil : Lines [] [] :=
  fun _ => ⟨[], rfl, rfl⟩

theorem append (first : Lines lines es) (second : Lines below fs) :
    Lines (lines ++ below) (es ++ fs) := by
  intro rest
  obtain ⟨us, same', read'⟩ := second rest
  obtain ⟨ts, same, read⟩ := first (below.flatMap (fun l => l.toList ++ ['\n']) ++ rest)
  refine ⟨ts ++ us, ?_, ?_⟩
  · rw [List.flatMap_append, List.append_assoc, same, same', List.append_assoc]
  · rw [SExpr.reach_append, read]
    simp [read']

theorem flatMap_eq_intercalate (some : lines ≠ []) :
    lines.flatMap (fun l => l.toList ++ ['\n']) =
      (String.intercalate "\n" lines).toList ++ ['\n'] := by
  rw [String.toList_intercalate]
  induction lines with
  | nil => exact absurd rfl some
  | cons l rest ih =>
    cases rest with
    | nil => simp
    | cons m more =>
      rw [List.flatMap_cons, ih (by simp)]
      simp

/-- A text on at least one line. -/
theorem of_complete (some : lines ≠ [])
    (complete : Complete (String.intercalate "\n" lines).toList es) : Lines lines es := by
  intro rest
  rw [flatMap_eq_intercalate some, List.append_assoc]
  exact complete rest

/-- Lines are read to the end. -/
theorem parseAll (read : Lines lines es) :
    SExpr.parseAll (String.join (lines.map (· ++ "\n"))) = .ok es := by
  obtain ⟨ts, same, reached⟩ := read []
  have text : (String.join (lines.map (· ++ "\n"))).toList =
      lines.flatMap fun l => l.toList ++ ['\n'] := by
    simp [String.toList_join, List.flatMap_map]
  rw [List.append_nil] at same
  rw [SExpr.parseAll_eq_ok, text, same]
  simpa [Lexeme.cut_nil, finish] using reached

end Lines

end SmtDialogue
