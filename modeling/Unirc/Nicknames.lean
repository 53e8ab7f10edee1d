import Unirc.Chars

/-!
# Nicknames and identifiers

`clean_nick_name` of `m_nick.c`, and the identifiers that `new_uid` of `s_user.c` makes: the
number of a server, which starts with a digit, and letters and digits.
-/

namespace Unirc

/-- `IsNickChar` -/
def isNickChar (c : Char) : Bool := c == '-' || c.isDigit || (0x41 ≤ c.toNat && c.toNat ≤ 0x7d)

def cleanNickName (nick : Str) (local_ : Bool) : Bool :=
  match nick with
  | [] => false
  | c :: cs => c != '-' && !(c.isDigit && local_) && (c :: cs).all isNickChar

def isUid (id : Str) : Bool :=
  match id with
  | [] => false
  | c :: cs => c.isDigit && cs.all Char.isAlphanum

theorem isNickChar_of_cleanNickName {nick : Str} {local_ : Bool}
    (h : cleanNickName nick local_ = true) : nick ≠ [] ∧ ∀ c ∈ nick, isNickChar c = true := by
  cases nick with
  | nil => cases h
  | cons c cs =>
      simp only [cleanNickName, Bool.and_eq_true, List.all_eq_true] at h
      exact ⟨List.cons_ne_nil _ _, h.2⟩

theorem isAlphanum_of_isUid {id : Str} (h : isUid id = true) :
    id ≠ [] ∧ ∀ c ∈ id, c.isAlphanum = true := by
  cases id with
  | nil => cases h
  | cons c cs =>
      simp only [isUid, Bool.and_eq_true, List.all_eq_true] at h
      refine ⟨List.cons_ne_nil _ _, fun x hx => ?_⟩
      rcases List.mem_cons.mp hx with rfl | hx
      · simp [Char.isAlphanum, h.1]
      · exact h.2 x hx

end Unirc
