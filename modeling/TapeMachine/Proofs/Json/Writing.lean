import TapeMachine.Proofs.Json.Tokens

/-!
Values written without spaces. Between two parts of a value there is always a mark, so the parts are
divided into tokens one by one. The main statement says that a value is read back from its text.
-/

namespace TapeMachine.Json

/-- A beginning that ends where a token ends: what follows is divided for itself. -/
def IsDivided (out : String) (tokens : List Token) : Prop :=
  ∀ rest, lexFrom .nothing (out.toList ++ rest) = (lexFrom .nothing rest).map (tokens ++ ·)

theorem isDivided_empty : IsDivided "" [] :=
  fun _ => Option.map_id'.symm

theorem IsDivided.lex_append {out text : String} {before after : List Token}
    (h : IsDivided out before) (htext : lex text = some after) :
    lex (out ++ text) = some (before ++ after) := by
  rw [lex_eq_lexFrom, String.toList_append, h, ← lex_eq_lexFrom, htext, Option.map_some]

theorem IsDivided.lex_eq {out : String} {tokens : List Token} (h : IsDivided out tokens) :
    lex out = some tokens := by
  have hempty : lex "" = some [] := rfl
  have hout := h.lex_append hempty
  rwa [String.append_empty, List.append_nil] at hout

theorem isDivided_mark {out : String} {tokens : List Token} (h : lex out = some tokens)
    (mark : Char) (hmark : isMark mark = true) :
    IsDivided (out ++ mark.toString) (tokens ++ [.mark mark]) := by
  intro rest
  rw [String.toList_append, Char.toString_eq_singleton, String.toList_singleton, List.append_assoc,
    List.singleton_append, lexFrom_append_mark h hmark]
  simp

/-- The value is written as its tokens, whatever stands before it. -/
def IsWritten (value : Json) : Prop :=
  ∀ {out : String} {before : List Token}, IsDivided out before →
    lex (writeOnto out value) = some (before ++ value.tokens)

theorem lex_writeItems {items : List Json} (hitems : ∀ item ∈ items, item.IsWritten)
    {out : String} {before : List Token} (h : IsDivided out before) :
    lex (writeItems out items) =
      some (before ++ [.mark ','].intercalate (items.map tokens)) := by
  induction items generalizing out before with
  | nil => exact h.lex_eq.trans (by simp)
  | cons item items ih =>
      obtain ⟨hitem, hrest⟩ := List.forall_mem_cons.1 hitems
      cases items with
      | nil => exact (hitem h).trans (by simp)
      | cons next others =>
          have hcomma := isDivided_mark (hitem h) ',' rfl
          exact (ih hrest hcomma).trans (by simp)

theorem lex_writeMember {member : Option String × Json} (hmember : member.2.IsWritten)
    {out : String} {before : List Token} (h : IsDivided out before) :
    lex (writeOnto (out ++ quoteText member.1 ++ ":") member.2) =
      some (before ++ ofMember member) := by
  have hkey := h.lex_append (lex_quoteText member.1)
  exact (hmember (isDivided_mark hkey ':' rfl)).trans (by simp [ofMember])

theorem lex_writeMembers {members : List (Option String × Json)}
    (hmembers : ∀ member ∈ members, member.2.IsWritten)
    {out : String} {before : List Token} (h : IsDivided out before) :
    lex (writeMembers out members) =
      some (before ++ [.mark ','].intercalate (members.map ofMember)) := by
  induction members generalizing out before with
  | nil => exact h.lex_eq.trans (by simp)
  | cons member members ih =>
      obtain ⟨hmember, hrest⟩ := List.forall_mem_cons.1 hmembers
      cases members with
      | nil => exact (lex_writeMember hmember h).trans (by simp)
      | cons next others =>
          have hcomma := isDivided_mark (lex_writeMember hmember h) ',' rfl
          exact (ih hrest hcomma).trans (by simp)

theorem IsReadable.isWritten {value : Json} (h : value.IsReadable) : value.IsWritten := by
  induction h with
  | null => exact fun h => by rw [writeOnto, tokens]; exact h.lex_append rfl
  | bool value =>
      intro out before h
      rw [writeOnto, tokens]
      cases value <;> exact h.lex_append rfl
  | number hnumber =>
      intro out before h
      rw [writeOnto, tokens]
      exact h.lex_append (lexFrom_of_isNumber hnumber)
  | text value =>
      intro out before h
      rw [writeOnto, tokens]
      exact h.lex_append (lex_quoteText value)
  | array _ ih =>
      intro out before h
      have hopened := isDivided_mark h.lex_eq '[' rfl
      have hclosed := isDivided_mark (lex_writeItems ih hopened) ']' rfl
      rw [writeOnto, tokens_array]
      exact hclosed.lex_eq.trans (by simp)
  | object _ ih =>
      intro out before h
      have hopened := isDivided_mark h.lex_eq '\x7b' rfl
      have hclosed := isDivided_mark (lex_writeMembers ih hopened) '\x7d' rfl
      rw [writeOnto, tokens_object]
      exact hclosed.lex_eq.trans (by simp)

/-- A value is read back from the text that it is written as. -/
theorem read_compact {value : Json} (h : value.IsReadable) : read value.compact = some value :=
  read_eq_some_iff.2 ⟨h, h.isWritten isDivided_empty⟩

/-- Values that can be read are told apart by their texts. -/
theorem compact_inj {value value' : Json} (h : value.IsReadable) (h' : value'.IsReadable)
    (heq : value.compact = value'.compact) : value = value' := by
  have hread := read_compact h
  rw [heq, read_compact h'] at hread
  exact (Option.some.inj hread).symm

end TapeMachine.Json
