import StudyNotes.Words.BasicString

namespace StudyNotes.Cluster.StrUtils

open Words.Leftmost Words.BasicString

variable {α : Type}

/-- The loop of Split, with the end of the last delimiter and the parts so far. It is cut off
after a number of rounds. -/
def splitLoop (find : Nat → Option Nat) (s : List α) (len : Nat) (keepEmptyParts : Bool) :
    Nat → Nat → List (List α) → Option (Nat × List (List α))
  | 0, _, _ => none
  | rounds + 1, start, slist =>
      match find start with
      | none => some (start, slist)
      | some pos => do
          let part ← substr s start (some (pos - start))
          let slist := if part.length > 0 ∨ keepEmptyParts then slist ++ [part] else slist
          splitLoop find s len keepEmptyParts rounds (pos + len) slist

/-- What Split does after its loop. -/
def splitTail (s : List α) (keepEmptyParts : Bool) (found : Nat × List (List α)) : Option (List (List α)) := do
  let (start, slist) := found
  if start ≠ s.length ∨ keepEmptyParts then
    let part ← substr s start none
    return slist ++ [part]
  else
    return slist

/-- The test that Split makes of each part. -/
def kept (keepEmptyParts : Bool) (part : List α) : Bool := decide (part.length > 0 ∨ keepEmptyParts)

theorem filter_kept_true (parts : List (List α)) : parts.filter (kept true) = parts :=
  List.filter_eq_self.2 fun _ _ => decide_eq_true (Or.inr rfl)

theorem filter_kept_false (parts : List (List α)) : parts.filter (kept false) = parts.filter (· ≠ []) := by
  refine List.filter_congr fun p _ => ?_
  rw [kept, decide_eq_decide, or_iff_left Bool.false_ne_true, gt_iff_lt, List.length_pos_iff]

theorem append_kept (keep : Bool) (slist : List (List α)) (part : List α) :
    (if part.length > 0 ∨ keep then slist ++ [part] else slist) = slist ++ [part].filter (kept keep) := by
  split
  · rename_i h
    rw [List.filter_cons_of_pos (by simpa [kept] using h), List.filter_nil]
  · rename_i h
    rw [List.filter_cons_of_neg (by simpa [kept] using h), List.filter_nil, List.append_nil]

theorem splitLoop_step {find : Nat → Option Nat} (keep : Bool) {rounds start : Nat} {s d p r : List α}
    (hfind : find start = some (start + p.length)) (hstart : start ≤ s.length) (hs : s.drop start = p ++ d ++ r)
    (slist : List (List α)) :
    splitLoop find s d.length keep (rounds + 1) start slist =
      splitLoop find s d.length keep rounds (start + p.length + d.length) (slist ++ [p].filter (kept keep)) := by
  have hpart : substr s start (some (start + p.length - start)) = some p := by
    rw [substr_count hstart, Nat.add_sub_cancel_left, hs, List.append_assoc, List.take_left]
  rw [splitLoop, hfind]
  simp only [hpart, Option.bind_eq_bind, Option.bind_some, append_kept]

variable [DecidableEq α]

def split (rounds : Nat) (s delimiter : List α) (keepEmptyParts : Bool) : Option (List (List α)) :=
  if delimiter = [] then
    some (if s.length > 0 ∨ keepEmptyParts then [s] else [])
  else
    match delimiter with
    -- the search for a single character
    | [ch] => splitLoop (findChar s ch) s delimiter.length keepEmptyParts rounds 0 [] >>= splitTail s keepEmptyParts
    | _ => splitLoop (find s delimiter) s delimiter.length keepEmptyParts rounds 0 [] >>= splitTail s keepEmptyParts

variable {s d : List α} {parts : List (List α)}

/-- The loop finds the parts of the leftmost cut, and ends where the last of them begins. -/
theorem splitLoop_cuts {find : Nat → Option Nat}
    (hfind : ∀ pos, pos ≤ s.length → find pos = Words.BasicString.find s d pos) (hd : d ≠ []) (keep : Bool)
    {start rounds : Nat} (hstart : start ≤ s.length) (hrounds : s.length - start < rounds)
    (hcuts : Cuts d (s.drop start) parts) (slist : List (List α)) :
    ∃ first last, parts = first ++ [last] ∧ last <:+ s ∧ splitLoop find s d.length keep rounds start slist =
      some (s.length - last.length, slist ++ first.filter (kept keep)) := by
  induction rounds generalizing start parts slist with
  | zero => omega
  | succ rounds ih =>
      cases hcuts with
      | last hclear =>
          refine ⟨[], s.drop start, rfl, List.drop_suffix start s, ?_⟩
          rw [splitLoop, hfind start hstart, find_of_clear hclear, List.length_drop, Nat.sub_sub_self hstart,
            List.filter_nil, List.append_nil]
      | @cut _ p r parts hcut hrest =>
          have hs := (dropInfix?_eq_some.1 hcut).1
          have hlen := congrArg List.length hs
          simp only [List.length_drop, List.length_append] at hlen
          have hpos := List.length_pos_of_ne_nil hd
          have hdrop : s.drop (start + p.length + d.length) = r := by
            rw [Nat.add_assoc, ← List.drop_drop, hs, ← List.length_append, List.drop_left]
          obtain ⟨first, last, rfl, hlast, hloop⟩ := ih (by omega) (by omega) (hdrop ▸ hrest)
            (slist ++ [p].filter (kept keep))
          refine ⟨p :: first, last, rfl, hlast, ?_⟩
          rw [splitLoop_step keep ((hfind start hstart).trans (find_of_cut hstart hcut)) hstart hs, hloop,
            List.append_assoc, ← List.filter_append, List.singleton_append]

/-- Split is the leftmost cut without the parts that are not kept. -/
theorem split_cuts (hd : d ≠ []) (hcuts : Cuts d s parts) {rounds : Nat} (hrounds : s.length < rounds) (keep : Bool) :
    split rounds s d keep = some (parts.filter (kept keep)) := by
  have htail {find : Nat → Option Nat}
      (hfind : ∀ pos, pos ≤ s.length → find pos = Words.BasicString.find s d pos) :
      (splitLoop find s d.length keep rounds 0 [] >>= splitTail s keep) = some (parts.filter (kept keep)) := by
    have hwhole : Cuts d (s.drop 0) parts := hcuts
    obtain ⟨first, last, rfl, hlast, hloop⟩ := splitLoop_cuts hfind hd keep (Nat.zero_le _) hrounds hwhole []
    have hend : s.length - last.length ≠ s.length ↔ last.length > 0 := by
      have hle := hlast.length_le
      omega
    have hrest : substr s (s.length - last.length) none = some last := by
      rw [substr_rest (Nat.sub_le _ _), ← List.suffix_iff_eq_drop.1 hlast]
    rw [hloop, List.filter_append, ← append_kept]
    simp only [splitTail, Option.bind_eq_bind, Option.bind_some, hend, hrest, List.nil_append]
    split <;> rfl
  unfold split
  rw [if_neg hd]
  split
  · exact htail fun pos hpos => findChar_eq_find _ hpos
  · exact htail fun _ _ => rfl

/-- Split that keeps the empty parts returns the only cut of the text at the leftmost occurrences
of the delimiter. -/
theorem split_leftmost (s d : List α) (hd : d ≠ []) :
    ∃ parts, (∀ rounds, s.length < rounds → split rounds s d true = some parts) ∧ LeftmostSplit d s parts ∧
      ∀ parts', LeftmostSplit d s parts' → parts' = parts := by
  obtain ⟨parts, hcuts⟩ := exists_cuts hd s
  refine ⟨parts, fun rounds hrounds => ?_, hcuts.leftmost hd, fun parts' h' => h'.cuts.unique hcuts⟩
  rw [split_cuts hd hcuts hrounds, filter_kept_true]

theorem split_leftmost_overlap :
    LeftmostSplit "aa".toList "aaa".toList ["".toList, "a".toList] ∧
      ¬LeftmostSplit "aa".toList "aaa".toList ["a".toList, "".toList] := by
  obtain ⟨parts, hsplit, hleft, hunique⟩ := split_leftmost "aaa".toList "aa".toList (by decide)
  have hparts : parts = ["".toList, "a".toList] := Option.some.inj ((hsplit 4 (by decide)).symm.trans (by decide))
  rw [hparts] at hleft hunique
  exact ⟨hleft, fun h => absurd (hunique _ h) (by decide)⟩

end StudyNotes.Cluster.StrUtils
