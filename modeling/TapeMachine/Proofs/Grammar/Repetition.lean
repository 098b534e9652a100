import TapeMachine.Proofs.Grammar.Search
import Mathlib.Data.List.DropRight
import Mathlib.Data.List.TakeWhile

/-!
Repetitions inside a sequence. When every match of a body takes up text, the bound on the number of
repetitions does not matter: the sequence tries the body, goes on after its match, and tries what
follows where the body does not match.
-/

namespace TapeMachine.Grammar

variable {Name : Type}

theorem Cursor.skipGap_skipGap (cursor : Cursor) : cursor.skipGap.skipGap = cursor.skipGap := by
  have hnone : (cursor.rest.dropWhile Text.isGap).takeWhile Text.isGap = [] := by
    have hhead := List.head?_dropWhile_not Text.isGap cursor.rest
    cases hrest : cursor.rest.dropWhile Text.isGap with
    | nil => rfl
    | cons c rest =>
        rw [hrest] at hhead
        exact List.takeWhile_cons_of_neg (Bool.not_eq_true _ ▸ hhead)
  simp only [skipGap, advance, List.dropWhile_idempotent, hnone, List.length_nil, Nat.add_zero]

theorem Cursor.length_skipGap_le (cursor : Cursor) :
    cursor.skipGap.rest.length ≤ cursor.rest.length :=
  List.length_dropWhile_le ..

/-- A body that takes up text whenever it matches. -/
def Shrinks (body : Cursor → Option (Found Name)) : Prop :=
  ∀ cursor found, body cursor = some found → found.cursor.rest.length < cursor.rest.length

theorem suffix_skipGap (context : Context) (cursor : Cursor) :
    (context.skipGap cursor).rest <:+ cursor.rest := by
  rw [Context.skipGap]
  split
  · exact List.suffix_rfl
  · exact List.dropWhile_suffix ..

theorem suffix_repeatSearch {context : Context} {body : Cursor → Option (Found Name)}
    (hbody : ∀ cursor found, body cursor = some found → found.cursor.rest <:+ cursor.rest)
    (bound : List Char) (cursor : Cursor) (nodes : List (Node Name)) :
    (repeatSearch context body bound cursor nodes).cursor.rest <:+ cursor.rest := by
  induction bound generalizing cursor nodes with
  | nil =>
      rw [repeatSearch]
      split
      · exact List.suffix_rfl
      · next hfound => exact (hbody _ _ hfound).trans (suffix_skipGap context cursor)
  | cons _ bound ih =>
      rw [repeatSearch]
      split
      · exact List.suffix_rfl
      · next hfound => exact (ih ..).trans ((hbody _ _ hfound).trans (suffix_skipGap context cursor))

/-- What a match leaves is an end of what stood before it. -/
theorem Pattern.suffix_of_find? {pattern : Pattern Name} {context : Context} {cursor : Cursor}
    {found : Found Name} (h : pattern.find? context cursor = some found) :
    found.cursor.rest <:+ cursor.rest := by
  induction pattern generalizing context cursor found with
  | start | finish =>
      rw [find?] at h
      split at h
      · cases h
        exact List.suffix_rfl
      · contradiction
  | any =>
      rw [find?] at h
      split at h
      · contradiction
      · next hrest =>
          cases h
          exact hrest ▸ List.suffix_cons ..
  | oneOf allowed =>
      rw [find?] at h
      split at h
      · contradiction
      · next hrest =>
          split at h
          · cases h
            exact hrest ▸ List.suffix_cons ..
          · contradiction
  | exactly text =>
      obtain ⟨rest, hafter, rfl⟩ := Option.map_eq_some_iff.1 h
      exact ⟨text, (after?_eq_some_iff.1 hafter).symm⟩
  | seq first second ihf ihs =>
      obtain ⟨one, two, hone, htwo, rfl⟩ := find?_seq_eq_some.1 h
      exact (ihs htwo).trans ((suffix_skipGap context one.cursor).trans (ihf hone))
  | either first second ihf ihs =>
      rw [find?, Option.or_eq_some_iff] at h
      rcases h with h | ⟨-, h⟩
      · exact ihf h
      · exact ihs h
  | optional body ih =>
      cases h
      cases hbody : body.find? context cursor with
      | none => exact List.suffix_rfl
      | some found => exact ih hbody
  | many body ih =>
      rw [find?, Option.some_inj] at h
      subst h
      split
      · exact List.suffix_rfl
      · next hbody => exact (suffix_repeatSearch (fun _ _ => ih) ..).trans (ih hbody)
  | ahead body ih =>
      obtain ⟨_, -, rfl⟩ := Option.map_eq_some_iff.1 h
      exact List.suffix_rfl
  | notAhead body ih =>
      rw [find?] at h
      split at h
      · cases h
        exact List.suffix_rfl
      · contradiction
  | named name joined body ih =>
      obtain ⟨inner, hinner, rfl⟩ := Option.map_eq_some_iff.1 h
      have hsuffix := ih hinner
      exact hsuffix

theorem Shrinks.seq_left {first : Pattern Name} (h : Shrinks (first.find? .top))
    (second : Pattern Name) : Shrinks ((Pattern.seq first second).find? .top) := by
  intro cursor found hfound
  obtain ⟨one, two, hone, htwo, rfl⟩ := Pattern.find?_seq_eq_some.1 hfound
  have hless := h cursor one hone
  have hskip := one.cursor.length_skipGap_le
  have hsecond := (Pattern.suffix_of_find? htwo).length_le
  rw [Context.skipGap_top] at hsecond
  dsimp only
  omega

theorem Shrinks.seq_right {second : Pattern Name} (h : Shrinks (second.find? .top))
    (first : Pattern Name) : Shrinks ((Pattern.seq first second).find? .top) := by
  intro cursor found hfound
  obtain ⟨one, two, hone, htwo, rfl⟩ := Pattern.find?_seq_eq_some.1 hfound
  have hless := h _ two htwo
  have hskip := one.cursor.length_skipGap_le
  have hfirst := (Pattern.suffix_of_find? hone).length_le
  rw [Context.skipGap_top] at hless
  dsimp only
  omega

section RepeatSearch

variable {body : Cursor → Option (Found Name)}

/-- What was found before is kept in front. -/
theorem repeatSearch_nodes (bound : List Char) (cursor : Cursor) (nodes : List (Node Name)) :
    repeatSearch .top body bound cursor nodes =
      ⟨(repeatSearch .top body bound cursor []).cursor,
        nodes.reverse ++ (repeatSearch .top body bound cursor []).nodes⟩ := by
  induction bound generalizing cursor nodes with
  | nil =>
      simp only [repeatSearch]
      cases body (Context.top.skipGap cursor) with
      | none => simp
      | some found => simp
  | cons _ bound ih =>
      simp only [repeatSearch]
      cases body (Context.top.skipGap cursor) with
      | none => simp
      | some found =>
          dsimp only
          rw [ih, ih _ (found.nodes.reverse ++ [])]
          simp

/-- Where no text is left, such a body does not match. -/
theorem Shrinks.eq_none_of_nil (hbody : Shrinks body) {cursor : Cursor}
    (hrest : cursor.rest.length ≤ 0) : body (Context.top.skipGap cursor) = none := by
  cases hfound : body (Context.top.skipGap cursor) with
  | none => rfl
  | some found =>
      have hless := hbody _ _ hfound
      have hskip := cursor.length_skipGap_le
      rw [Context.skipGap_top] at hless
      omega

theorem Shrinks.repeatSearch_bound (hbody : Shrinks body) (bound other : List Char)
    (cursor : Cursor) (nodes : List (Node Name)) (hbound : cursor.rest.length ≤ bound.length)
    (hother : cursor.rest.length ≤ other.length) :
    repeatSearch .top body bound cursor nodes = repeatSearch .top body other cursor nodes := by
  have hskip := cursor.length_skipGap_le
  induction bound generalizing other cursor nodes with
  | nil =>
      have hnone := hbody.eq_none_of_nil hbound
      cases other with
      | nil => rfl
      | cons _ other => simp only [repeatSearch, hnone]
  | cons _ bound ih =>
      cases hfound : body (Context.top.skipGap cursor) with
      | none => cases other <;> simp only [repeatSearch, hfound]
      | some found =>
          have hless := hbody _ _ hfound
          rw [Context.skipGap_top] at hless
          cases other with
          | nil =>
              rw [List.length_nil] at hother
              omega
          | cons _ other =>
              simp only [repeatSearch, hfound]
              rw [List.length_cons] at hbound hother
              exact ih other found.cursor _ (by omega) (by omega) found.cursor.length_skipGap_le

end RepeatSearch

namespace Pattern

variable {body : Pattern Name}

/-- Repeats a body from a place on, with a gap before each match. -/
def repeated (body : Pattern Name) (cursor : Cursor) : Found Name :=
  repeatSearch .top (body.find? .top) cursor.rest cursor []

theorem repeated_of_none {cursor : Cursor} (h : body.find? .top cursor.skipGap = none) :
    body.repeated cursor = ⟨cursor, []⟩ := by
  rw [repeated]
  cases cursor.rest <;> simp only [repeatSearch, Context.skipGap_top, h, List.reverse_nil]

theorem repeated_of_some (hbody : Shrinks (body.find? .top)) {cursor : Cursor} {found : Found Name}
    (h : body.find? .top cursor.skipGap = some found) :
    body.repeated cursor =
      ⟨(body.repeated found.cursor).cursor, found.nodes ++ (body.repeated found.cursor).nodes⟩ := by
  have hless := Nat.lt_of_lt_of_le (hbody _ _ h) cursor.length_skipGap_le
  rw [repeated]
  cases hrest : cursor.rest with
  | nil =>
      rw [hrest] at hless
      contradiction
  | cons c rest =>
      rw [hrest, List.length_cons] at hless
      simp only [repeatSearch, Context.skipGap_top, h]
      rw [hbody.repeatSearch_bound rest found.cursor.rest _ _ (by omega) (Nat.le_refl _),
        repeatSearch_nodes]
      simp [repeated]

theorem find?_many (hbody : Shrinks (body.find? .top)) (cursor : Cursor) :
    ∃ last, (many body).find? .top cursor.skipGap = some last ∧
      last.cursor.skipGap = (body.repeated cursor).cursor.skipGap ∧
      last.nodes = (body.repeated cursor).nodes := by
  rw [find?]
  cases h : body.find? .top cursor.skipGap with
  | none =>
      rw [repeated_of_none h]
      exact ⟨_, rfl, cursor.skipGap_skipGap, rfl⟩
  | some found =>
      refine ⟨_, rfl, ?_⟩
      dsimp only
      rw [repeated_of_some hbody h, repeatSearch_nodes, List.reverse_reverse]
      exact ⟨rfl, rfl⟩

/-- Only the gap before the first match tells places before it apart. -/
theorem repeated_congr (hbody : Shrinks (body.find? .top)) {cursor other : Cursor}
    (h : cursor.skipGap = other.skipGap) :
    (body.repeated cursor).cursor.skipGap = (body.repeated other).cursor.skipGap ∧
      (body.repeated cursor).nodes = (body.repeated other).nodes := by
  obtain ⟨last, hlast, hcursor, hnodes⟩ := find?_many hbody cursor
  obtain ⟨later, hlater, hotherCursor, hotherNodes⟩ := find?_many hbody other
  rw [h, hlater] at hlast
  cases hlast
  exact ⟨hcursor.symm.trans hotherCursor, hnodes.symm.trans hotherNodes⟩

theorem find?_many_seq_eq (hbody : Shrinks (body.find? .top)) (next : Pattern Name)
    (cursor : Cursor) :
    (seq (many body) next).find? .top cursor.skipGap =
      (next.find? .top (body.repeated cursor).cursor.skipGap).map fun last =>
        ⟨last.cursor, (body.repeated cursor).nodes ++ last.nodes⟩ := by
  obtain ⟨last, hlast, hcursor, hnodes⟩ := find?_many hbody cursor
  rw [find?, hlast, Option.bind_some, Context.skipGap_top, hcursor, hnodes]

theorem find?_many_seq_of_none (hbody : Shrinks (body.find? .top)) {cursor : Cursor}
    (h : body.find? .top cursor.skipGap = none) (next : Pattern Name) :
    (seq (many body) next).find? .top cursor.skipGap = next.find? .top cursor.skipGap := by
  rw [find?_many_seq_eq hbody, repeated_of_none h]
  cases next.find? .top cursor.skipGap <;> rfl

theorem find?_many_seq_of_some (hbody : Shrinks (body.find? .top)) {cursor : Cursor}
    {found : Found Name} (h : body.find? .top cursor.skipGap = some found) (next : Pattern Name) :
    (seq (many body) next).find? .top cursor.skipGap =
      ((seq (many body) next).find? .top found.cursor.skipGap).map fun last =>
        ⟨last.cursor, found.nodes ++ last.nodes⟩ := by
  rw [find?_many_seq_eq hbody, find?_many_seq_eq hbody, repeated_of_some hbody h, Option.map_map]
  congr 1
  funext last
  simp

end Pattern

end TapeMachine.Grammar
