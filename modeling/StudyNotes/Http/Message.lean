import StudyNotes.Codes.Decimal
import StudyNotes.Http.Program

namespace StudyNotes.Http.Message

open Program Codes.Decimal
open Mail.Program (ascii)

section headers

variable {headers : Headers} {name value : List UInt8}

theorem lookup_insertHeader :
    (insertHeader headers name value).lookup name = (headers.lookup name).or (some value) := by
  rw [insertHeader]
  by_cases h : name ∈ headers
  · obtain ⟨old, hold⟩ := Finmap.mem_iff.1 h
    rw [if_pos h, hold]
    rfl
  · rw [if_neg h, Finmap.lookup_insert, Finmap.lookup_eq_none.2 h]
    rfl

theorem mem_walk_iff (order : Order headers) : ⟨name, value⟩ ∈ order.walk.entries ↔ headers.lookup name = some value := by
  obtain ⟨walk, rfl⟩ := order
  exact AList.mem_lookup_iff.symm

/-- A name has one place in the order. -/
theorem walk_split (order : Order headers) (h : headers.lookup name = some value) :
    ∃ before after, order.walk.entries = before ++ ⟨name, value⟩ :: after ∧ ∀ e ∈ before ++ after, e.1 ≠ name := by
  obtain ⟨before, after, heq⟩ := List.append_of_mem ((mem_walk_iff order).2 h)
  refine ⟨before, after, heq, ?_⟩
  have hnodup : (order.walk.entries.map Sigma.fst).Nodup := order.walk.nodupKeys
  rw [heq, List.map_append, List.map_cons, List.nodup_middle, List.nodup_cons, ← List.map_append] at hnodup
  intro e he heq
  exact hnodup.1 (List.mem_map.2 ⟨e, he, heq⟩)

theorem exists_order (headers : Headers) : Nonempty (Order headers) := by
  induction headers using Finmap.induction_on with
  | _ walk => exact ⟨⟨walk, rfl⟩⟩

def defaultEntries : List (Σ _ : List UInt8, List UInt8) := defaultHeaders.map fun e => ⟨ascii e.1, ascii e.2⟩

theorem nodupKeys_defaultEntries : defaultEntries.NodupKeys := by
  change (defaultEntries.map Sigma.fst).Nodup
  decide

/-- The constructor's fallbacks are never used. -/
theorem headers_new (method : Option Method) :
    (Request.new method).headers = AList.toFinmap ⟨defaultEntries, nodupKeys_defaultEntries⟩ := by
  apply Finmap.ext
  change (Request.new none).headers.entries = _
  decide

end headers

section text

def startLines (M : Method) : List UInt8 :=
  M.getPost ++ (ascii " " ++ M.uri ++ ascii " HTTP/1.1\r\n") ++ (ascii "Host: " ++ M.host ++ ascii "\r\n")

def headerLines (entries : List (Σ _ : List UInt8, List UInt8)) : List UInt8 := entries.flatMap fun e => line e.1 e.2

theorem toString_eq {R : Request} {M : Method} (h : R.method = some M) (order : Order R.headers) :
    R.toString order = .ok (startLines M ++ headerLines order.walk.entries ++ ascii "\r\n" ++ R.postData) := by
  rw [Request.toString, h]
  rfl

theorem decimal_eq (n : Nat) : decimal n = numeral n := by
  rw [numeral, ← Nat.toList_repr]
  rfl

theorem decimal_injective : Function.Injective decimal := by
  intro m n h
  rw [decimal_eq, decimal_eq] at h
  exact numeral_injective h

end text

section home

def defaultOrder (method : Option Method) : Order (Request.new method).headers := ⟨_, (headers_new method).symm⟩

/-- What the constructor makes of a POST to http://localhost/. -/
def homeMethod : Method := ⟨ascii "POST", ascii "http://localhost/", ascii "localhost", 80, ascii "/"⟩

def homeRequest : Request := Request.new (some homeMethod)

end home

end StudyNotes.Http.Message
