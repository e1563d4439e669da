import Poseidon.Lib.Firsts
import Poseidon.Proofs.Joins
import Poseidon.Query.Joins

/-!
# Duplicate elimination

The operator passes on the first tuple with each key. That is the first
occurrence of each distinct tuple if no two different tuples are written as
the same text; the texts of the values stand one behind the other, so where
one value ends and the next begins is lost, and so is the type of a value.
-/

namespace Poseidon

namespace DistinctTuples

open Firsts

variable {isoExtended : Int → String} {ctx : QueryCtx}

/-- The characters of all values of a tuple. -/
def written (isoExtended : Int → String) (ctx : QueryCtx) (v : QrTuple) : List Char :=
  v.flatMap fun qres => (text isoExtended ctx qres).toList

theorem key_toList (v : QrTuple) :
    (key isoExtended ctx v).toList = written isoExtended ctx v := by
  have hloop : ∀ (v : QrTuple) (key : String),
      (v.foldl (fun key qres => key ++ text isoExtended ctx qres) key).toList =
        key.toList ++ written isoExtended ctx v := by
    intro v
    induction v with
    | nil => intro key; simp [written]
    | cons q v ih =>
        intro key
        rw [List.foldl_cons, ih, String.toList_append, List.append_assoc]
        rfl
  rw [key, hloop]
  rfl

theorem key_eq_iff {v w : QrTuple} : key isoExtended ctx v = key isoExtended ctx w ↔
    written isoExtended ctx v = written isoExtended ctx w := by
  rw [← key_toList, ← key_toList, String.toList_inj]

/-- The operator passes on the first tuple with each key. -/
theorem run_eq {st : DistinctTuples} {seen : List QrTuple}
    (h : ∀ k, k ∈ st.keys ↔ ∃ v ∈ seen, key isoExtended ctx v = k) (input : List QrTuple) :
    run isoExtended ctx st input = firsts (sameKey (key isoExtended ctx)) seen input := by
  induction input generalizing st seen with
  | nil => rfl
  | cons v input ih =>
      have hany : seen.any (sameKey (key isoExtended ctx) · v) = true ↔
          key isoExtended ctx v ∈ st.keys := by
        rw [List.any_eq_true, h]
        exact exists_congr fun w => and_congr_right fun _ => decide_eq_true_iff
      rw [run, process, firsts]
      by_cases hmem : key isoExtended ctx v ∈ st.keys
      · rw [if_pos hmem, if_pos (hany.mpr hmem)]
        refine ih fun k => (h k).trans ⟨?_, ?_⟩
        · rintro ⟨w, hw, rfl⟩
          exact ⟨w, List.mem_append_left _ hw, rfl⟩
        · rintro ⟨w, hw, rfl⟩
          rcases List.mem_append.mp hw with hw | hw
          · exact ⟨w, hw, rfl⟩
          · rw [List.mem_singleton.mp hw]
            exact (h _).mp hmem
      · rw [if_neg hmem, if_neg fun h => hmem (hany.mp h)]
        refine congrArg (v :: ·) (ih fun k => ?_)
        rw [List.mem_cons, h]
        constructor
        · rintro (rfl | ⟨w, hw, rfl⟩)
          · exact ⟨v, by simp, rfl⟩
          · exact ⟨w, List.mem_append_left _ hw, rfl⟩
        · rintro ⟨w, hw, rfl⟩
          rcases List.mem_append.mp hw with hw | hw
          · exact .inr ⟨w, hw, rfl⟩
          · rw [List.mem_singleton.mp hw]
            exact .inl rfl

/-- Values that stand for the same are written alike. -/
theorem text_congr {a b : QueryResult} (hd : a.double? = none)
    (h : valueId ctx a = valueId ctx b) :
    text isoExtended ctx a = text isoExtended ctx b := by
  cases a <;> cases b <;> simp only [valueId, reduceCtorEq, ValueId.node.injEq,
    ValueId.rship.injEq, ValueId.int.injEq, ValueId.str.injEq, ValueId.uint64.injEq,
    ValueId.ptime.injEq, ValueId.array.injEq] at h
  case double => cases hd
  all_goals simp only [text, h]

theorem written_congr {v w : QrTuple} (hd : ∀ q ∈ v, q.double? = none)
    (h : tupleId ctx v = tupleId ctx w) :
    written isoExtended ctx v = written isoExtended ctx w := by
  induction v generalizing w with
  | nil =>
      obtain rfl := List.map_eq_nil_iff.mp h.symm
      rfl
  | cons q v ih =>
      cases w with
      | nil => cases h
      | cons q' w =>
          obtain ⟨hq, hrest⟩ := List.cons.inj h
          have htail := ih (fun r hr => hd r (List.mem_cons_of_mem _ hr)) hrest
          rw [written, List.flatMap_cons, text_congr (hd q (List.mem_cons_self ..)) hq]
          exact congrArg (_ ++ ·) htail

end DistinctTuples

open Firsts in
/-- Exactly the first occurrences are passed on if and only if no two
different tuples of the input are written as the same text. -/
theorem distinct_iff (isoExtended : Int → String) (ctx : QueryCtx) (input : List QrTuple)
    (hd : ∀ v ∈ input, ∀ q ∈ v, q.double? = none) :
    DistinctTuples.run isoExtended ctx .new input = firsts (sameKey (tupleId ctx)) [] input ↔
      ∀ v ∈ input, ∀ w ∈ input, DistinctTuples.written isoExtended ctx v =
        DistinctTuples.written isoExtended ctx w → tupleId ctx v = tupleId ctx w := by
  rw [@DistinctTuples.run_eq _ _ .new [] fun k => ⟨fun h => (by cases h), fun h => by
    obtain ⟨_, hw, -⟩ := h
    cases hw⟩]
  rw [firsts_eq_iff fun v hv w _ h =>
    DistinctTuples.key_eq_iff.mpr (DistinctTuples.written_congr (hd v hv) h)]
  simp only [DistinctTuples.key_eq_iff]

/-- Different texts: the second occurrence is dropped. -/
theorem distinct_of_written :
    DistinctTuples.run (fun _ => "") QueryCtx.initial .new
        [[.str "a", .int 1], [.null], [.str "a", .int 1]] =
      Firsts.firsts (Firsts.sameKey (tupleId QueryCtx.initial)) []
        [[.str "a", .int 1], [.null], [.str "a", .int 1]] :=
  (distinct_iff (fun _ => "") QueryCtx.initial _ (by
    intro v hv q hq
    simp only [List.mem_cons, List.not_mem_nil, or_false] at hv
    rcases hv with rfl | rfl | rfl <;> simp only [List.mem_cons, List.not_mem_nil, or_false] at hq
    · rcases hq with rfl | rfl <;> rfl
    · obtain rfl := hq
      rfl
    · rcases hq with rfl | rfl <;> rfl)).mpr (by
    intro v hv w hw
    simp only [List.mem_cons, List.not_mem_nil, or_false] at hv hw
    rcases hv with rfl | rfl | rfl <;> rcases hw with rfl | rfl | rfl <;> decide)

/-- Two different tuples of strings with one key: the second one is lost. -/
theorem distinct_drops_tuple :
    ¬DistinctTuples.run (fun _ => "") QueryCtx.initial .new
        [[.str "ab", .str "c"], [.str "a", .str "bc"]] =
      Firsts.firsts (Firsts.sameKey (tupleId QueryCtx.initial)) []
        [[.str "ab", .str "c"], [.str "a", .str "bc"]] := by
  intro h
  have hlen := congrArg List.length h
  revert hlen
  decide

end Poseidon
