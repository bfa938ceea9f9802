import Quadword.Proofs.Grammar.Confined

/-!
# Reading a line stops at its end

Statements and initial values are read from one line each, and what is read of it never includes the
end of that line: every rule of the grammar refuses a line break and the end of the text wherever it
could be asked for a token (**`statement_confined`**, **`initialValue_confined`**). This holds of
the two attempts that may be given up too, whose tokens are then read again.
-/

namespace Quadword

open Grammar

namespace Parser

variable {S : Position → Prop} {c : Cursor}

/-! ## Statements -/

/--
A condition is on one line: two operands and the sign between them. A sign that is missing is
reported at what stands in its place, be it the end of the line.
-/
theorem condition_confined (hc : c.Ready S) : Confined .line S condition condition c := by
  unfold Parser.condition
  apply (operand_confined _ hc).bind hc
  intro left c₁ _ _ hc₁
  apply Confined.next hc₁
  intro t ts _
  cases t.value with
  | compare comparison =>
      refine .inr ⟨by simp [Reach.Covers], fun hc₂ => ?_⟩
      exact (operand_confined _ hc₂).bind hc₂ fun _ _ _ _ _ => .pure
  | _ => exact .inl ⟨_, rfl, rfl, by simp⟩

/-- The constant region is refused at the slot itself, whose span begins at its first token. -/
theorem writableSlot_confined (hc : c.Ready S) :
    Confined .line S writableSlot writableSlot c := by
  unfold Parser.writableSlot
  apply (slot_confined hc).spanned hc |>.bind hc
  intro s c₁ hs _ _
  split
  · apply Confined.throw (by simp)
    rw [(spanned_eq_ok hs).2]
    exact ahead_start hc
  · exact .pure

/-- A place to write to is a slot or an access through an address, both on the line. -/
theorem place_confined (hc : c.Ready S) : Confined .line S place place c := by
  unfold Parser.place
  apply Confined.peek hc
  intro t ts htok
  cases hv : t.value with
  | id name =>
      dsimp only
      cases Width.ofName? name with
      | none => exact writableSlot_confined hc
      | some width =>
          -- the address may be as deep as there are tokens
          have hn : ConfinedExpr S c.tokens.length expression expression := fun c' hc' _ =>
            ⟨expression_confined hc', fun _ _ => expression_start hc'⟩
          have ht : Reach.line.Covers t.value := by simp [hv, Reach.Covers]
          apply (indirect_confined hn hc (Nat.le_succ _) htok ht).bind hc
          exact fun _ _ _ _ _ => .pure
  | _ => exact writableSlot_confined hc

/-- The destination of a jump is one token on the line, and anything else is refused. -/
theorem destination_confined (hc : c.Ready S) : Confined .line S destination destination c := by
  unfold Parser.destination
  apply Confined.next hc
  intro t ts _
  cases t.value with
  | keyword k =>
      cases k with
      | finish => exact .inr ⟨by simp [Reach.Covers], fun _ => .pure⟩
      | _ => exact .inl ⟨_, rfl, rfl, by simp⟩
  | id name => exact .inr ⟨by simp [Reach.Covers], fun _ => .pure⟩
  | _ => exact .inl ⟨_, rfl, rfl, by simp⟩

/--
Arguments, with any two bounds that the tokens respect: each one reads a comma, so both bounds may
go down.
-/
theorem arguments_confined (bound : Nat) :
    ∀ (bound' : Nat) (c : Cursor), c.Ready S → c.tokens.length ≤ bound →
      c.tokens.length ≤ bound' → Confined .line S (arguments bound) (arguments bound') c := by
  induction bound with
  -- there is a token, so the bound is not zero
  | zero =>
      intro bound' c hc hbound _
      have hpos := length_pos hc
      omega
  | succ bound ih =>
      intro bound' c hc hbound hbound'
      have hpos := length_pos hc
      cases bound' with
      | zero => omega
      | succ bound' =>
          unfold arguments
          apply Confined.accept hc (by simp [Reach.Covers])
          · intro l ts htok hc₁
            rw [htok, List.length_cons] at hbound hbound'
            apply (operand_confined _ hc₁).bind hc₁
            intro a c₂ _ hread₂ hc₂
            have hlen₂ : c₂.tokens.length ≤ ts.length := hread₂.length_le
            apply (ih bound' c₂ hc₂ (by omega) (by omega)).bind hc₂
            exact fun _ _ _ _ _ => .pure
          · exact .pure

section Keywords

variable {t : Located Token} {ts : List (Located Token)} (hc : c.Ready S)
  (htok : c.tokens = t :: ts) (ht : Reach.line.Covers t.value)

include hc htok ht

theorem label_confined : Confined .line S label label c := by
  unfold Parser.label
  apply Confined.skip hc htok ht
  exact fun hc₁ => (identifier_confined hc₁).bind hc₁ fun _ _ _ _ _ => .pure

/-- A jump, from its keyword on, up to its condition if it has one. -/
theorem goto_confined : Confined .line S goto goto c := by
  unfold Parser.goto
  apply Confined.skip hc htok ht
  intro hc₁
  apply (destination_confined hc₁).bind hc₁
  intro target c₂ _ _ hc₂
  apply Confined.accept hc₂ (by simp [Reach.Covers])
  · exact fun _ _ _ hc₃ => (condition_confined hc₃).bind hc₃ fun _ _ _ _ _ => .pure
  · exact .pure

theorem pass_confined : Confined .line S pass pass c := by
  unfold Parser.pass
  apply Confined.skip hc htok ht
  intro hc₁
  apply Confined.accept hc₁ (by simp [Reach.Covers])
  · exact fun _ _ _ hc₂ => (literal_confined hc₂).bind hc₂ fun _ _ _ _ _ => .pure
  · exact .pure

/-- An alignment; a boundary other than 8 and 16 is refused once it is read. -/
theorem align_confined : Confined .line S align align c := by
  unfold Parser.align
  apply Confined.skip hc htok ht
  intro hc₁
  apply (literal_confined hc₁).bind hc₁
  intro n c₂ _ _ hc₂
  split
  · exact .pure
  · split
    · exact .pure
    · exact .fail hc₂ (by simp)

/-- A call. The bound on its arguments counts all tokens, so this is where two bounds meet. -/
theorem syscall_confined (output : Option Place) :
    Confined .line S (syscall output) (syscall output) c := by
  unfold Parser.syscall
  apply Confined.skip hc htok ht
  intro hc₁
  apply (identifier_confined hc₁).bind hc₁
  intro name c₂ _ _ hc₂
  apply Confined.remaining
  intro n hn
  apply (arguments_confined _ n c₂ hc₂ (Nat.le_refl _) hn).bind hc₂
  exact fun _ _ _ _ _ => .pure

/--
A change of the stack pointer, in both of its forms. The second token tells which of them it is, and
what it computes with is an expression in both.
-/
theorem setSp_confined : Confined .line S setSp setSp c := by
  unfold Parser.setSp
  apply Confined.skip hc htok ht
  intro hc₁
  apply Confined.next hc₁
  intro u us _
  -- any other token is a failure that blames it
  cases u.value with
  | assign =>
      refine .inr ⟨by simp [Reach.Covers], fun hc₂ => ?_⟩
      exact (operand_confined _ hc₂).bind hc₂ fun _ _ _ _ _ => .pure
  | compound op =>
      refine .inr ⟨by simp [Reach.Covers], fun hc₂ => ?_⟩
      exact (operand_confined _ hc₂).bind hc₂ fun _ _ _ _ _ => .pure
  | _ => exact .inl ⟨_, rfl, rfl, by simp⟩

end Keywords

/-- What opens a choice, up to the question mark. -/
theorem selector_confined (hc : c.Ready S) : Confined .line S selector selector c := by
  unfold Parser.selector
  apply (expect_confined hc (by simp [Reach.Covers])).bind hc
  intro _ c₁ _ _ hc₁
  apply (condition_confined hc₁).bind hc₁
  intro condition c₂ _ _ hc₂
  apply (expect_confined hc₂ (by simp [Reach.Covers])).bind hc₂
  intro _ c₃ _ _ hc₃
  exact (expect_confined hc₃ (by simp [Reach.Covers])).bind hc₃ fun _ _ _ _ _ => .pure

/--
A choice or a value. The attempt at a choice may read ahead on the line and give up; that leaves the
cursor where it was, so the value is read from the same place with more tokens behind as without.
-/
theorem chosen_confined (target : Place) (hc : c.Ready S) :
    Confined .line S (chosen target) (chosen target) c := by
  unfold Parser.chosen
  apply (selector_confined hc).attempt.bind hc
  intro r c₁ _ _ hc₁
  -- the attempt has read the opening of a choice, or nothing
  cases r with
  | some condition =>
      apply (operand_confined _ hc₁).bind hc₁
      intro yes c₂ _ _ hc₂
      apply (expect_confined hc₂ (by simp [Reach.Covers])).bind hc₂
      intro _ c₃ _ _ hc₃
      exact (operand_confined _ hc₃).bind hc₃ fun _ _ _ _ _ => .pure
  | none =>
      apply (operand_confined _ hc₁).bind hc₁
      intro value c₂ _ _ hc₂
      apply Confined.accept hc₂ (by simp [Reach.Covers])
      · exact fun _ _ _ hc₃ => (condition_confined hc₃).bind hc₃ fun _ _ _ _ _ => .pure
      · exact .pure

/-- What is stored: the result of a call, told by its keyword, or one of the above. -/
theorem assigned_confined (target : Place) (hc : c.Ready S) :
    Confined .line S (assigned target) (assigned target) c := by
  unfold Parser.assigned
  apply Confined.peek hc
  intro t ts htok
  cases hv : t.value with
  | keyword k =>
      cases k with
      | syscall => exact syscall_confined hc htok (by simp [hv, Reach.Covers]) _
      | _ => exact chosen_confined target hc
  | _ => exact chosen_confined target hc

/-- A statement that stores, from its target on. -/
theorem store_confined (hc : c.Ready S) : Confined .line S store store c := by
  unfold Parser.store
  apply (place_confined hc).bind hc
  intro target c₁ _ _ hc₁
  apply Confined.next hc₁
  intro t ts _
  cases t.value with
  | compound op =>
      refine .inr ⟨by simp [Reach.Covers], fun hc₂ => ?_⟩
      exact (operand_confined _ hc₂).bind hc₂ fun _ _ _ _ _ => .pure
  | assign => exact .inr ⟨by simp [Reach.Covers], assigned_confined target⟩
  | _ => exact .inl ⟨_, rfl, rfl, by simp⟩

/--
**A statement stays on its line.** Whatever is read for it, and wherever it fails, the end of the
line and the end of the text stay unread, except that they may be blamed.
-/
theorem statement_confined (hc : c.Ready S) : Confined .line S statement statement c := by
  unfold Parser.statement
  apply Confined.peek hc
  intro t ts htok
  -- a token that starts no statement is blamed, whichever it is
  have hrefused : Confined .line S
      (Parser.next >>= fun _ => Parser.fail (α := Statement) (.expected .statement t.value))
      (Parser.next >>= fun _ => Parser.fail (.expected .statement t.value)) c :=
    .next hc fun _ _ _ => .inl ⟨_, rfl, rfl, by simp⟩
  cases hv : t.value with
  | hash => exact label_confined hc htok (by simp [hv, Reach.Covers])
  | keyword k =>
      have ht : Reach.line.Covers t.value := by simp [hv, Reach.Covers]
      cases k with
      | goto => exact goto_confined hc htok ht
      | pass => exact pass_confined hc htok ht
      | align => exact align_confined hc htok ht
      | syscall => exact syscall_confined hc htok ht none
      | sp => exact setSp_confined hc htok ht
      | _ =>
          rw [hv] at hrefused
          exact hrefused
  | openSquare => exact store_confined hc
  | id name => exact store_confined hc
  | _ =>
      rw [hv] at hrefused
      exact hrefused

/-! ## Initial values -/

/--
An initial value stays on its line. The stack has no initial values; a slot of it is refused at the
bracket that closes it.
-/
theorem initialValue_confined (hc : c.Ready S) :
    Confined .line S initialValue initialValue c := by
  unfold Parser.initialValue
  apply (slot_confined hc).bind hc
  intro s c₁ _ _ hc₁
  cases s.space with
  | stack => exact .fail hc₁ (by simp)
  | region r =>
      -- the literal, after its sign or without one
      have hliteral : ∀ {c : Cursor} (negative : Bool), c.Ready S → Confined .line S
          (literal >>= fun value => Parser.accept .wide >>= fun _ =>
            Pure.pure (⟨r, s.offset, if negative then -value else value⟩ : Initializer))
          (literal >>= fun value => Parser.accept .wide >>= fun _ =>
            Pure.pure ⟨r, s.offset, if negative then -value else value⟩) c := by
        intro c negative hc
        apply (literal_confined hc).bind hc
        intro value c₁ _ _ hc₁
        exact .accept hc₁ (by simp [Reach.Covers]) (fun _ _ _ _ => .pure) .pure
      apply (expect_confined hc₁ (by simp [Reach.Covers])).bind hc₁
      intro _ c₂ _ _ hc₂
      apply Confined.accept hc₂ (by simp [Reach.Covers])
      · exact fun _ _ _ hc₃ => hliteral true hc₃
      · exact hliteral false hc₂

/--
The line has to end behind an initial value, and whatever else stands there is refused without being
read.
-/
theorem initializer_confined (hc : c.Ready S) :
    Confined .line S initializer initializer c := by
  unfold Parser.initializer
  apply ((initialValue_confined hc).spanned hc).bind hc
  intro i c₁ _ _ hc₁
  apply Confined.peek hc₁
  intro t ts _
  cases t.value with
  | newline => exact .pure
  | eof => exact .pure
  | _ => exact .fail hc₁ (by simp)

end Parser

end Quadword
