import Linger.AppMarkdown
import Linger.ArchiveBodyInline

/-! What the archive and the app read alike wherever an address may stand: its end, and the
characters that only one of them takes for whitespace. -/
namespace Linger.ReadAlike
open CheckedText
open Names (Text isWhitespace)
open AppMarkdown (isSpace)

/-- A character that only one side takes for whitespace. -/
def Uneven (c : Char) : Prop := isWhitespace c ≠ isSpace c

theorem not_uneven {c : Char} (h : ¬Uneven c) : isWhitespace c = isSpace c := not_not.mp h

theorem toLower_eq {c : Char} (h : ¬(65 ≤ c.toNat ∧ c.toNat ≤ 90)) : c.toLower = c := by
  unfold Char.toLower
  rw [dif_neg]
  exact h

theorem trimParens_eq {turns : ℕ} {raw : Text} (hturns : raw.length ≤ turns) :
    ArchiveBody.trimParens turns raw = .ok (AppMarkdown.trimParens turns raw) := by
  induction turns generalizing raw with
  | zero =>
    rw [List.length_eq_zero_iff.mp (Nat.le_zero.mp hturns), ArchiveBody.trimParens,
      AppMarkdown.trimParens]
    rfl
  | succ turns ih =>
    rw [ArchiveBody.trimParens, AppMarkdown.trimParens]
    split
    · next hclosing =>
      obtain ⟨before, rfl⟩ := List.getLast?_eq_some_iff.mp hclosing.1
      have hbytes : byteLen (before ++ [')']) - 1 = byteLen before := by
        rw [byteLen_append]
        exact Nat.add_sub_cancel _ 1
      have hbefore : before.length ≤ turns := by
        rw [List.length_append, List.length_singleton] at hturns
        omega
      rw [hbytes, bytesTo_append, List.dropLast_concat]
      exact ih hbefore
    · rfl

theorem trimAddress_eq (found : Text) :
    ArchiveBody.trimAddress found = .ok (AppMarkdown.trimAddress found) :=
  trimParens_eq le_rfl

theorem trimAddress_prefix (taken : Text) :
    AppMarkdown.trimAddress taken <+: taken ∧
      ('/' ∈ taken → '/' ∈ AppMarkdown.trimAddress taken) := by
  obtain ⟨raw, hraw, hspec⟩ := ArchiveBody.trimAddress_returns taken
  rw [trimAddress_eq] at hraw
  rwa [Except.ok.inj hraw]

end Linger.ReadAlike
