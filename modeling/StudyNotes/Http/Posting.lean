import StudyNotes.Http.Message

namespace StudyNotes.Http.Posting

open Program Message
open Mail.Program (ascii)

section run

/-- The request after some calls of setPostData. -/
def post (R : Request) (posts : List (List UInt8)) : Request := posts.foldl (fun R text => (R.setPostData text).2) R

theorem post_concat (R : Request) (posts : List (List UInt8)) (text : List UInt8) :
    post R (posts ++ [text]) = ((post R posts).setPostData text).2 := List.foldl_append

/-- The entry from before the calls or, without one, the length given by the first of them. -/
def announced (R : Request) (posts : List (List UInt8)) : Option (List UInt8) :=
  (R.headers.lookup contentLength).or (posts.head?.map fun text => decimal text.length)

theorem lookup_post (R : Request) (posts : List (List UInt8)) :
    (post R posts).headers.lookup contentLength = announced R posts := by
  induction posts using List.reverseRecOn with
  | nil => exact Option.or_none.symm
  | append_singleton posts text ih =>
      rw [post_concat]
      change (insertHeader (post R posts).headers contentLength (decimal text.length)).lookup contentLength = _
      rw [lookup_insertHeader, ih, announced, announced, Option.or_assoc]
      cases posts <;> rfl

end run

section message

/-- The header names the length of the body, and the message has a line for it above the blank line
that the body follows. No other entry has this name; what the bytes of the others spell is not looked at. -/
structure Describes (R : Request) : Prop where
  entry : R.headers.lookup contentLength = some (decimal R.postData.length)
  message : ∀ M, R.method = some M → ∀ order : Order R.headers, ∃ before after,
    R.toString order = .ok (startLines M ++ headerLines before ++ line contentLength (decimal R.postData.length) ++
        headerLines after ++ ascii "\r\n" ++ R.postData) ∧
      order.walk.entries = before ++ ⟨contentLength, decimal R.postData.length⟩ :: after ∧
      ∀ e ∈ before ++ after, e.1 ≠ contentLength

theorem describes_iff_entry (R : Request) :
    Describes R ↔ R.headers.lookup contentLength = some (decimal R.postData.length) := by
  refine ⟨fun h => h.entry, fun hentry => ⟨hentry, fun M hmethod order => ?_⟩⟩
  obtain ⟨before, after, hwalk, hother⟩ := walk_split order hentry
  refine ⟨before, after, ?_, hwalk, hother⟩
  rw [toString_eq hmethod, hwalk, headerLines, List.flatMap_append, List.flatMap_cons]
  simp only [headerLines, List.append_assoc]

/-- After each call, the length that the request announces is the one of the body. -/
def AlwaysDescribes (R : Request) (posts : List (List UInt8)) : Prop :=
  ∀ before text after, posts = before ++ text :: after → Describes (post R (before ++ [text]))

theorem describes_post_iff (R : Request) (before after : List (List UInt8)) (text : List UInt8) :
    Describes (post R (before ++ [text])) ↔ announced R (before ++ text :: after) = some (decimal text.length) := by
  have hdata : (post R (before ++ [text])).postData = text := by
    rw [post_concat]
    rfl
  have hhead : announced R (before ++ [text]) = announced R (before ++ text :: after) := by
    rw [announced, announced]
    cases before <;> rfl
  rw [describes_iff_entry, lookup_post, hdata, hhead]

theorem alwaysDescribes_iff (R : Request) (posts : List (List UInt8)) :
    AlwaysDescribes R posts ↔
      (∀ value, R.headers.lookup contentLength = some value → ∀ text ∈ posts, value = decimal text.length) ∧
        ∀ text ∈ posts, ∀ text' ∈ posts, text.length = text'.length := by
  -- The header keeps the value it had first, so one value has to fit all calls.
  have hall : AlwaysDescribes R posts ↔ ∀ text ∈ posts, announced R posts = some (decimal text.length) := by
    constructor
    · intro h text hmem
      obtain ⟨before, after, rfl⟩ := List.append_of_mem hmem
      exact (describes_post_iff R before after text).1 (h before text after rfl)
    · rintro h before text after rfl
      exact (describes_post_iff R before after text).2 (h text (by simp))
  rw [hall]
  constructor
  · intro h
    constructor
    · intro value hvalue text hmem
      have htext := h text hmem
      rw [announced, hvalue] at htext
      exact Option.some.inj htext
    · intro text hmem text' hmem'
      exact decimal_injective (Option.some.inj ((h text hmem).symm.trans (h text' hmem')))
  · rintro ⟨hentry, hlength⟩ text hmem
    rw [announced]
    cases hvalue : R.headers.lookup contentLength with
    | some value =>
        rw [hentry value hvalue text hmem]
        rfl
    | none =>
        cases posts with
        | nil => cases hmem
        | cons first posts =>
            rw [hlength text hmem first List.mem_cons_self]
            rfl

/-- Two calls with bodies of one and two bytes. -/
theorem alwaysDescribes_fails :
    ¬AlwaysDescribes homeRequest [ascii "a", ascii "bc"] ∧
      (post homeRequest [ascii "a", ascii "bc"]).headers.lookup contentLength = some (ascii "1") ∧
      (post homeRequest [ascii "a", ascii "bc"]).postData = ascii "bc" := by
  have hentry : (post homeRequest [ascii "a", ascii "bc"]).headers.lookup contentLength = some (ascii "1") := by
    rw [lookup_post]
    decide
  refine ⟨fun h => ?_, hentry, rfl⟩
  have hdescribed := (h [ascii "a"] (ascii "bc") [] rfl).entry
  cases hentry.symm.trans hdescribed

end message

end StudyNotes.Http.Posting
