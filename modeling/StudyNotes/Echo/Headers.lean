import StudyNotes.Echo.Program
import Mathlib.Algebra.Order.Ring.Int

namespace StudyNotes.Echo.Headers

open Systems.Transition Lists.Overwrite Program

variable {ι : Type}

theorem length_putInt (p : Int) : (putInt p).length = 4 := rfl

theorem getInt_of_take {mtext : List UInt8} {p : Int} (h : mtext.take 4 = putInt p) (hpos : 0 ≤ p)
    (hlt : p < 2 ^ 31) : getInt mtext = p := by
  rw [← List.take_append_drop 4 mtext, h, putInt, getInt]
  simp only [List.cons_append, List.getD_cons_zero, List.getD_cons_succ, UInt8.toNat_ofNat']
  split <;> omega

theorem line_length (n : Nat) (stdin : List UInt8) : (line n stdin).1.length ≤ n := by
  induction n generalizing stdin with
  | zero => simp [line]
  | succ n ih =>
      cases stdin with
      | nil => simp [line]
      | cons b stdin =>
          have h := ih stdin
          rw [line]
          split <;> simp [h]

theorem strlen_le (xs rest : List UInt8) : strlen (xs ++ 0 :: rest) ≤ xs.length := by
  induction xs with
  | nil => simp [strlen]
  | cons b xs ih =>
      rw [strlen] at ih ⊢
      rw [List.cons_append, List.takeWhile_cons]
      split
      · simp [ih]
      · simp

/-- The string that fgets leaves in the buffer is no longer than the line. -/
theorem strlen_overwrite {mtext : List UInt8} {pos : Nat} (h : pos ≤ mtext.length) (xs : List UInt8) :
    strlen ((overwrite mtext pos (xs ++ [0])).drop pos) ≤ xs.length := by
  rw [drop_overwrite h, List.append_assoc, List.singleton_append]
  exact strlen_le xs _

theorem pid_nonneg (pids : Pids ι) (i : ι) : 0 ≤ pids.pid i := (by decide : (0 : Int) ≤ 2).trans (pids.two_le i)

theorem putInt_injective (pids : Pids ι) {i j : ι} (h : putInt (pids.pid i) = putInt (pids.pid j)) : i = j := by
  have hi : getInt (putInt (pids.pid i)) = pids.pid i := getInt_of_take rfl (pid_nonneg pids i) (pids.lt i)
  have hj : getInt (putInt (pids.pid j)) = pids.pid j := getInt_of_take rfl (pid_nonneg pids j) (pids.lt j)
  exact pids.injective (hi.symm.trans ((congrArg getInt h).trans hj))

/-- A message of the client, on its way to the server or back. -/
structure Tagged (pids : Pids ι) (i : ι) (m : Message) : Prop where
  own : m.mtext.take 4 = putInt (pids.pid i)
  mtype : m.mtype = 1 ∨ m.mtype = pids.pid i
  length : m.mtext.length < msgMaxlen

theorem Tagged.eq_of_mtype {pids : Pids ι} {i j : ι} {m : Message} (h : Tagged pids i m)
    (ht : m.mtype = pids.pid j) : i = j := by
  rcases h.mtype with hone | hpid
  · have := pids.two_le j
    omega
  · exact pids.injective (hpid.symm.trans ht)

structure ClientSound (pids : Pids ι) (i : ι) (x : Client) : Prop where
  length : x.mtext.length = msgMaxlen
  own : x.mtext.take 4 = putInt (pids.pid i)
  sending : x.point = .sending → x.mtype = 1 ∧ 4 + strlen (x.mtext.drop 4) < msgMaxlen

structure ServerSound (pids : Pids ι) (x : Server) : Prop where
  length : x.mtext.length = msgMaxlen
  alive : x.point ≠ .exited
  replying : ∀ n, x.point = .replying n → ∃ i, Tagged pids i (x.reply n) ∧ x.mtype = pids.pid i

/-- The type of a reply is a process id, which msgsnd accepts. -/
theorem ServerSound.mtype_pos {pids : Pids ι} {x : Server} {n : Nat} (h : ServerSound pids x)
    (hp : x.point = .replying n) : 0 < x.mtype := by
  obtain ⟨i, -, hi⟩ := h.replying n hp
  have := pids.two_le i
  omega

theorem clientSound_init (pids : Pids ι) (i : ι) (stdin : List UInt8) :
    ClientSound pids i (Client.init (pids.pid i) stdin) := by
  constructor
  case length =>
    rw [Client.init, length_overwrite, List.length_replicate]
    rw [length_putInt, List.length_replicate, msgMaxlen]
    omega
  case own => exact take_overwrite_zero _ (putInt (pids.pid i))
  case sending => exact nofun

theorem ClientSound.fgets {pids : Pids ι} {i : ι} {x : Client} (h : ClientSound pids i x) :
    ClientSound pids i x.fgets := by
  obtain ⟨hlen, hown, -⟩ := h
  rw [Client.fgets, Program.fgets]
  split
  next => exact ⟨hlen, hown, nofun⟩
  next bytes stdin heq =>
    split at heq
    next => cases heq
    next =>
      simp only [Option.some.injEq, Prod.mk.injEq] at heq
      obtain ⟨rfl, -⟩ := heq
      have hline := line_length (msgMaxlen - 4 - 1) x.stdin
      have hpos : 4 ≤ x.mtext.length := by rw [hlen]; decide
      constructor
      case length =>
        rw [length_overwrite, hlen]
        simp only [List.length_append, List.length_singleton, hlen, msgMaxlen] at hline ⊢
        omega
      case own => rw [take_overwrite hpos, hown]
      case sending =>
        refine fun _ => ⟨rfl, ?_⟩
        have hstr := strlen_overwrite hpos (line (msgMaxlen - 4 - 1) x.stdin).1
        simp only [msgMaxlen] at hline hstr ⊢
        omega

theorem ClientSound.sent {pids : Pids ι} {i : ι} {x : Client} (h : ClientSound pids i x) :
    ClientSound pids i x.sent := by
  have hpos : 4 ≤ x.mtext.length := by rw [h.length]; decide
  constructor
  case length =>
    rw [Client.sent, length_overwrite, h.length]
    rw [List.length_replicate, h.length, msgMaxlen]
  case own => rw [Client.sent, take_overwrite hpos, h.own]
  case sending => exact nofun

theorem take_of_own {pids : Pids ι} {i : ι} {mtext rest : List UInt8} (h : mtext.take 4 = putInt (pids.pid i)) :
    (mtext ++ rest).take 4 = putInt (pids.pid i) := by
  have hlen : 4 ≤ mtext.length := by
    have := congrArg List.length h
    rw [length_putInt, List.length_take] at this
    omega
  rw [List.take_append_of_le_length hlen, h]

theorem ClientSound.receive {pids : Pids ι} {i : ι} {x : Client} {m : Message} (h : ClientSound pids i x)
    (hm : Tagged pids i m) : ClientSound pids i (x.receive m) := by
  constructor
  case length =>
    rw [Client.receive, length_overwrite, h.length]
    rw [Nat.zero_add, h.length]
    exact hm.length.le
  case own => rw [Client.receive, overwrite_zero, take_of_own hm.own]
  case sending => exact nofun

theorem ClientSound.exit {pids : Pids ι} {i : ι} {x : Client} (h : ClientSound pids i x) :
    ClientSound pids i { x with point := .exited } := ⟨h.length, h.own, nofun⟩

theorem ClientSound.request {pids : Pids ι} {i : ι} {x : Client} (h : ClientSound pids i x)
    (hp : x.point = .sending) : Tagged pids i x.request := by
  obtain ⟨htype, hstr⟩ := h.sending hp
  constructor
  case own => rw [Client.request, List.take_take, Nat.min_eq_left (Nat.le_add_right 4 _), h.own]
  case mtype => exact Or.inl htype
  case length =>
    rw [Client.request, List.length_take]
    omega

/-- The server sends back the text under the id of the client that sent it. -/
theorem reply_receive {pids : Pids ι} {i : ι} {m : Message} (hm : Tagged pids i m) (x : Server) :
    (x.receive m).reply m.mtext.length = ⟨pids.pid i, m.mtext⟩ := by
  have hown : (overwrite x.mtext 0 m.mtext).take 4 = putInt (pids.pid i) := by
    rw [overwrite_zero, take_of_own hm.own]
  rw [Server.reply, Server.receive, take_overwrite_zero, getInt_of_take hown (pid_nonneg pids i) (pids.lt i)]

theorem ServerSound.receive {pids : Pids ι} {i : ι} {x : Server} {m : Message} (h : ServerSound pids x)
    (hm : Tagged pids i m) : ServerSound pids (x.receive m) := by
  constructor
  case length =>
    rw [Server.receive, length_overwrite, h.length]
    rw [Nat.zero_add, h.length]
    exact hm.length.le
  case alive => exact nofun
  case replying =>
    rintro n hn
    cases hn
    have hreply := reply_receive hm x
    refine ⟨i, ?_, congrArg Message.mtype hreply⟩
    rw [hreply]
    exact ⟨hm.own, Or.inr rfl, hm.length⟩

theorem ServerSound.replied {pids : Pids ι} {x : Server} (h : ServerSound pids x) : ServerSound pids x.replied := by
  constructor
  case length =>
    rw [Server.replied, length_overwrite, h.length]
    rw [List.length_replicate, h.length, Nat.zero_add]
  case alive => exact nofun
  case replying => exact nofun

theorem oldest_split {t : Int} {queue : List Message} {m : Message} (h : oldest t queue = some m) :
    m.mtype = t ∧ ∃ l₁ l₂, queue = l₁ ++ m :: l₂ ∧ remove t queue = l₁ ++ l₂ := by
  obtain ⟨ht, l₁, l₂, rfl, hnot⟩ := List.find?_eq_some_iff_append.1 h
  refine ⟨by simpa [hasType] using ht, l₁, l₂, rfl, ?_⟩
  rw [remove, List.eraseP_append_right _ (by simpa using hnot), List.eraseP_cons_of_pos ht]

theorem mem_of_mem_remove {t : Int} {queue : List Message} {m : Message} (h : m ∈ remove t queue) : m ∈ queue :=
  List.mem_of_mem_eraseP h

structure Sound (pids : Pids ι) (s : State ι) : Prop where
  clients : ∀ i, ClientSound pids i (s.clients i)
  queue : ∀ m ∈ s.queue, ∃ i, Tagged pids i m
  server : ServerSound pids s.server

/-- The oldest message of a type comes from one of the clients. -/
theorem Sound.oldest {pids : Pids ι} {s : State ι} {t : Int} {m : Message} (h : Sound pids s)
    (hm : oldest t s.queue = some m) : ∃ i, Tagged pids i m :=
  h.queue m (List.mem_of_find?_eq_some hm)

/-- A message of the type that a client asks for carries the client's own id. -/
theorem Sound.oldest_pid {pids : Pids ι} {s : State ι} {i : ι} {m : Message} (h : Sound pids s)
    (hm : Program.oldest (pids.pid i) s.queue = some m) : Tagged pids i m := by
  obtain ⟨j, hj⟩ := h.oldest hm
  obtain rfl := hj.eq_of_mtype (oldest_split hm).1
  exact hj

variable [DecidableEq ι]

theorem Sound.update {pids : Pids ι} {s : State ι} {i : ι} {x : Client} (h : Sound pids s)
    (hx : ClientSound pids i x) (j : ι) : ClientSound pids j (Function.update s.clients i x j) := by
  by_cases hj : j = i
  · subst hj
    rwa [Function.update_self]
  · rw [Function.update_of_ne hj]
    exact h.clients j

theorem sound_step {pids : Pids ι} {capacity : Nat} {s s' : State ι} {e : Event ι} (h : Sound pids s)
    (hs : Step pids capacity s e s') : Sound pids s' := by
  cases hs with
  | fgets i hp => exact ⟨h.update (h.clients i).fgets, h.queue, h.server⟩
  | clientSend i hp hfit =>
      refine ⟨h.update (h.clients i).sent, ?_, h.server⟩
      intro m hm
      rcases List.mem_append.1 hm with hm | hm
      · exact h.queue m hm
      · rw [List.mem_singleton.1 hm]
        exact ⟨i, (h.clients i).request hp⟩
  | clientReceive i m hp hm hlen =>
      exact ⟨h.update ((h.clients i).receive (h.oldest_pid hm)), fun m' hm' => h.queue m' (mem_of_mem_remove hm'),
        h.server⟩
  | clientTooBig i m hp hm hlen => exact ⟨h.update (h.clients i).exit, h.queue, h.server⟩
  | serverReceive m hp hm hlen =>
      obtain ⟨i, hi⟩ := h.oldest hm
      exact ⟨h.clients, fun m' hm' => h.queue m' (mem_of_mem_remove hm'), h.server.receive hi⟩
  | serverTooBig m hp hm hlen =>
      obtain ⟨i, hi⟩ := h.oldest hm
      exact absurd hi.length (Nat.lt_asymm hlen)
  | serverSend n hp hpos hfit =>
      refine ⟨h.clients, ?_, h.server.replied⟩
      intro m hm
      rcases List.mem_append.1 hm with hm | hm
      · exact h.queue m hm
      · rw [List.mem_singleton.1 hm]
        obtain ⟨i, hi, -⟩ := h.server.replying n hp
        exact ⟨i, hi⟩
  | serverInvalid n hp hneg => exact absurd (h.server.mtype_pos hp) (Int.not_lt_of_ge hneg)

theorem sound_reachable {pids : Pids ι} {capacity : Nat} {stdin : ι → List UInt8} {s : State ι}
    (h : Reachable (system pids capacity stdin) s) : Sound pids s := by
  refine Reachable.invariant (I := Sound pids) ?_ (fun s e s' hI hs => sound_step hI hs) h
  rintro s rfl
  refine ⟨fun i => clientSound_init pids i (stdin i), nofun, ?_, nofun, nofun⟩
  exact List.length_replicate

end StudyNotes.Echo.Headers
