import TongjiCode.Tokens.SparseMultilineTokens

/-!
# Deletions in a storage

`acceptDeleteRange` rewrites the tokens in place and stops early where it can.  On tokens in order this is the same as
dealing with each token alone (`acceptDeleteRange_eq`); in particular it never throws.
-/

namespace TongjiCode.Tokens

def Token.Proper (token : Token) : Prop :=
  0 ≤ token.deltaLine ∧ 0 ≤ token.startCharacter ∧ token.startCharacter < token.endCharacter

def Token.StartsBefore (a b : Token) : Prop :=
  a.deltaLine < b.deltaLine ∨ a.deltaLine = b.deltaLine ∧ a.startCharacter ≤ b.startCharacter

/-- Where the deletion of a range leaves a token of a storage, `none` if it is deleted. -/
def deleteToken (horizontalShift startDeltaLine startCharacter endDeltaLine endCharacter : Int) (token : Token) :
    Option Token :=
  if token.deltaLine < startDeltaLine ∨ token.deltaLine = startDeltaLine ∧ token.endCharacter ≤ startCharacter then
    some token
  else if token.deltaLine = startDeltaLine ∧ token.startCharacter < startCharacter then
    if token.deltaLine = endDeltaLine ∧ token.endCharacter > endCharacter then
      some { token with endCharacter := token.endCharacter - (endCharacter - startCharacter) }
    else some { token with endCharacter := startCharacter }
  else if token.deltaLine = startDeltaLine ∧ token.startCharacter = startCharacter then
    if token.deltaLine = endDeltaLine ∧ token.endCharacter > endCharacter then
      some { token with endCharacter := token.endCharacter - (endCharacter - startCharacter) }
    else none
  else if token.deltaLine < endDeltaLine ∨ token.deltaLine = endDeltaLine ∧ token.startCharacter < endCharacter then
    if token.deltaLine = endDeltaLine ∧ token.endCharacter > endCharacter then
      some { token with
        deltaLine := startDeltaLine
        startCharacter := startCharacter
        endCharacter := startCharacter + (token.endCharacter - endCharacter) }
    else none
  else if token.deltaLine > endDeltaLine then
    some { token with deltaLine := token.deltaLine - (endDeltaLine - startDeltaLine) }
  else
    some { token with
      deltaLine := token.deltaLine - (endDeltaLine - startDeltaLine)
      startCharacter := token.startCharacter + (if token.deltaLine = 0 then horizontalShift else 0) -
        (endCharacter - startCharacter)
      endCharacter := token.endCharacter + (if token.deltaLine = 0 then horizontalShift else 0) -
        (endCharacter - startCharacter) }

section Deletion

variable {horizontalShift startDeltaLine startCharacter endDeltaLine endCharacter : Int}

/-- Once a token was deleted, no token is before the range any more. -/
def PastStart (startDeltaLine startCharacter : Int) (tokens : List Token) : Prop :=
  ∀ token ∈ tokens, startDeltaLine < token.deltaLine ∨
    startDeltaLine = token.deltaLine ∧ startCharacter < token.endCharacter

theorem deleteLoop_eq (tokens : List Token) : ∀ (slots : List Token) (hasDeletedTokens : Bool),
    tokens.Pairwise Token.StartsBefore → (∀ token ∈ tokens, token.Proper) →
    tokens.length ≤ slots.length →
    (hasDeletedTokens = false → slots = tokens) →
    (hasDeletedTokens = true → PastStart startDeltaLine startCharacter tokens) →
    Storage.deleteLoop horizontalShift startDeltaLine startCharacter endDeltaLine endCharacter slots tokens
        hasDeletedTokens =
      some (tokens.filterMap
        (deleteToken horizontalShift startDeltaLine startCharacter endDeltaLine endCharacter)) := by
  induction tokens with
  | nil =>
    intro slots hasDeletedTokens _ _ _ _ _
    rfl
  | cons token tokens ih =>
    intro slots hasDeletedTokens hsorted hproper hlen hsame hpast
    obtain ⟨slot, slots, rfl⟩ : ∃ slot slots', slots = slot :: slots' := by
      cases slots with
      | nil => simp at hlen
      | cons slot slots => exact ⟨slot, slots, rfl⟩
    obtain ⟨hfirst, hsorted⟩ := List.pairwise_cons.mp hsorted
    have hproper' : ∀ token' ∈ tokens, token'.Proper := fun token' h => hproper token' (List.mem_cons_of_mem _ h)
    have hlen' : tokens.length ≤ slots.length := by simpa using hlen
    have hwrite := ih slots hasDeletedTokens hsorted hproper' hlen'
      (fun h => (List.cons.inj (hsame h)).2) (fun h token' h' => hpast h token' (List.mem_cons_of_mem _ h'))
    -- a token that is deleted is past the start of the range, and so are those that follow it
    have hdrop : startDeltaLine < token.deltaLine ∨
        startDeltaLine = token.deltaLine ∧ startCharacter ≤ token.startCharacter →
        Storage.deleteLoop horizontalShift startDeltaLine startCharacter endDeltaLine endCharacter (slot :: slots) tokens
            true =
          some (tokens.filterMap
            (deleteToken horizontalShift startDeltaLine startCharacter endDeltaLine endCharacter)) := by
      intro hpast'
      refine ih (slot :: slots) true hsorted hproper' (by simp; omega) (by simp) fun _ token' h' => ?_
      have hbefore := hfirst token' h'
      obtain ⟨-, -, hne'⟩ := hproper' token' h'
      unfold Token.StartsBefore at hbefore
      omega
    rw [Storage.deleteLoop]
    rw [hwrite, List.filterMap_cons]
    generalize hrest : tokens.filterMap
      (deleteToken horizontalShift startDeltaLine startCharacter endDeltaLine endCharacter) = rest at hdrop ⊢
    unfold deleteToken
    by_cases hbefore : token.deltaLine < startDeltaLine ∨
        token.deltaLine = startDeltaLine ∧ token.endCharacter ≤ startCharacter
    · have hslot : slot = token := by
        cases hasDeletedTokens with
        | false => exact (List.cons.inj (hsame rfl)).1
        | true =>
          have := hpast rfl token List.mem_cons_self
          omega
      simp only [if_pos hbefore, hslot, Option.map_some]
    simp only [if_neg hbefore]
    by_cases hline : token.deltaLine = startDeltaLine ∧ token.startCharacter < startCharacter
    · simp only [if_pos hline]
      by_cases hend : token.deltaLine = endDeltaLine ∧ token.endCharacter > endCharacter
      · simp only [if_pos hend, Option.map_some]
      · simp only [if_neg hend, Option.map_some]
    simp only [if_neg hline]
    by_cases hat : token.deltaLine = startDeltaLine ∧ token.startCharacter = startCharacter
    · simp only [if_pos hat]
      by_cases hend : token.deltaLine = endDeltaLine ∧ token.endCharacter > endCharacter
      · simp only [if_pos hend, Option.map_some]
      · simp only [if_neg hend]
        exact hdrop (by omega)
    simp only [if_neg hat]
    by_cases hinside : token.deltaLine < endDeltaLine ∨
        token.deltaLine = endDeltaLine ∧ token.startCharacter < endCharacter
    · simp only [if_pos hinside]
      by_cases hend : token.deltaLine = endDeltaLine ∧ token.endCharacter > endCharacter
      · simp only [if_pos hend, Option.map_some]
      · simp only [if_neg hend]
        exact hdrop (by omega)
    simp only [if_neg hinside]
    by_cases hbelow : token.deltaLine > endDeltaLine
    · simp only [if_pos hbelow]
      by_cases hstop : endDeltaLine - startDeltaLine = 0 ∧ hasDeletedTokens = false
      · -- the early stop: all that is left is below, and nothing moves
        have hall : ∀ token' ∈ tokens,
            deleteToken horizontalShift startDeltaLine startCharacter endDeltaLine endCharacter token' = some token' := by
          intro token' h'
          have hbefore' := hfirst token' h'
          unfold Token.StartsBefore at hbefore'
          unfold deleteToken
          rw [if_neg (by omega), if_neg (by omega), if_neg (by omega), if_neg (by omega), if_pos (by omega), hstop.1,
            Int.sub_zero]
        rw [List.filterMap_congr hall, List.filterMap_some] at hrest
        rw [if_pos hstop, hsame hstop.2, hrest, hstop.1, Int.sub_zero]
      · simp only [if_neg hstop, Option.map_some]
    simp only [if_neg hbelow]
    have hlast : token.deltaLine = endDeltaLine ∧ token.startCharacter ≥ endCharacter := by omega
    have hshift : (if horizontalShift ≠ 0 ∧ token.deltaLine = 0 then horizontalShift else 0) =
        if token.deltaLine = 0 then horizontalShift else 0 := by
      split_ifs <;> omega
    rw [if_pos hlast, hshift]
    rfl

theorem acceptDeleteRange_eq {tokens : List Token} (hsorted : tokens.Pairwise Token.StartsBefore)
    (hproper : ∀ token ∈ tokens, token.Proper) :
    Storage.acceptDeleteRange tokens horizontalShift startDeltaLine startCharacter endDeltaLine endCharacter =
      some (tokens.filterMap
        (deleteToken horizontalShift startDeltaLine startCharacter endDeltaLine endCharacter)) :=
  deleteLoop_eq tokens tokens false hsorted hproper (Nat.le_refl _) (fun _ => rfl) (by simp)

end Deletion

end TongjiCode.Tokens
