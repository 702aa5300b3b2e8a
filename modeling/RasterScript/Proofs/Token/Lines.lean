import RasterScript.Proofs.Token.Breaks

/-! Scans compose at line ends: after a text without faults, a new line is scanned as if it stood
alone. -/
namespace RasterScript.Token

/-! ### A new line -/

section NewLine

variable {n : Nat} {w rest b : List Char} {ts : List Token} {fs : List (Located Fault)}

private theorem tokenAt_newline (rest : List Char) : TokenAt .newline ['\n'] rest :=
  ⟨longest_newline, nofun⟩

/-- What is passed over does not reach into a new line. -/
theorem Skipped.append_newline (h : Skipped w rest) : Skipped w (rest ++ '\n' :: b) := by
  cases h with
  | blanks hne hall => exact .blanks hne hall
  | lineComment hinLine hend =>
    refine .lineComment hinLine fun c hc => ?_
    cases rest with
    | nil => exact (Option.some.inj hc).symm
    | cons d rest => exact hend c hc
  | blockComment hfirst => exact .blockComment hfirst

theorem Lexed.scanFrom_append_newline (h : Lexed n rest ts fs) (hfs : fs = []) :
    scanFrom n (rest ++ '\n' :: b) =
      ⟨ts ++ ⟨.newline, "\n", ⟨n + byteLength rest, n + byteLength rest + 1⟩⟩ ::
          (scanFrom (n + byteLength rest + 1) b).tokens,
        (scanFrom (n + byteLength rest + 1) b).faults⟩ := by
  induction h with
  | @done n => exact scanFrom_token (tokenAt_newline b) n
  | skip hw _ ih =>
    rw [List.append_assoc, scanFrom_skip hw.append_newline, ih hfs, byteLength_append]
    simp only [Nat.add_assoc]
  | @token n k w rest ts fs hw _ ih =>
    have hbreak : TokenAt k w (rest ++ '\n' :: b) := by
      refine TokenAt.of_break (x := []) ?_ (breaks_cons (by decide))
      rwa [List.append_nil]
    rw [List.append_assoc, scanFrom_token hbreak, ih hfs, byteLength_append]
    simp only [Nat.add_assoc, List.cons_append]
  | fault _ _ _ => cases hfs

end NewLine

/-- Scans compose at line ends: after a text without faults come the line end and then the tokens
and faults of the next lines, moved by as many bytes. No comment and no continuation of the first
text reaches over the seam. -/
theorem scan_composes_at_line_ends (a b : String) (h : (scan a).faults = []) :
    scan (a ++ "\n" ++ b) =
      ⟨(scan a).tokens ++ ⟨.newline, "\n", ⟨a.utf8ByteSize, a.utf8ByteSize + 1⟩⟩ ::
          (scan b).tokens.map (shift (a.utf8ByteSize + 1)),
        (scan b).faults.map (Located.shift (a.utf8ByteSize + 1))⟩ := by
  have hlist : (a ++ "\n" ++ b).toList = a.toList ++ '\n' :: b.toList := by
    rw [String.toList_append, String.toList_append, List.append_assoc]
    rfl
  have hseam := (lexed_scanFrom 0 a.toList).scanFrom_append_newline (b := b.toList) h
  rw [Nat.zero_add, byteLength_toList] at hseam
  rw [scan_eq_scanFrom, hlist, hseam]
  have hshift := scanFrom_shift (a.utf8ByteSize + 1) 0 b.toList
  rw [Nat.add_zero] at hshift
  rw [hshift]
  rfl

/-- A comment at the end of the first line, and two faults in the second. -/
theorem commented_line_composes :
    (scan "1e // c").faults = [] ∧
    (scan ("1e // c" ++ "\n" ++ "@ /*")).tokens =
      [⟨.number, "1", ⟨0, 1⟩⟩, ⟨.ident, "e", ⟨1, 2⟩⟩, ⟨.newline, "\n", ⟨7, 8⟩⟩] ∧
    (scan ("1e // c" ++ "\n" ++ "@ /*")).faults =
      [⟨.unexpected "@", ⟨8, 9⟩⟩, ⟨.unterminatedComment, ⟨10, 12⟩⟩] := by
  have hfaults : (scan "1e // c").faults = [] := by decide +kernel
  rw [scan_composes_at_line_ends _ _ hfaults]
  exact ⟨hfaults, by decide +kernel, by decide +kernel⟩

end RasterScript.Token
