import Unpvol1.Chat.PfdScan

/-!
# Chat.Broadcast

What the clients of the group chat server get to read. A client that has a message to get holds a
pointer into the receive buffer of its sender, so the message is there only as long as that buffer
keeps it.

* `Talk`       — a run of the server, beside the messages each client has still to be sent.
* `Delivered`  — a flush sends the client what it has still to be sent, and nothing else sends.
* `Intact`     — what a flush would send each client now is what it has still to be sent.
* `Harmless`   — the condition on a step: nothing arrives or leaves that a pending message
  stands on.
* `delivered_iff` — a run stays intact just when all its steps are harmless (`intact_step`), and
  then every flush delivers.
-/

namespace Unpvol1
namespace ServerPoll

open Slots

/-- The messages a client has still to be sent: those received from others since it joined or was
last sent something. -/
structure Talk where
  base : State
  owed : Nat → List (List UInt8)

/-- A message is owed to everyone who is connected, its sender apart. -/
def owedAfter (opened : List Nat) (owed : Nat → List (List UInt8)) :
    Act → Nat → List (List UInt8)
  | .accept fd => Function.update owed fd []
  | .close fd => Function.update owed fd []
  | .recv fd bytes => fun f => if f ∈ opened ∧ f ≠ fd then owed f ++ [bytes] else owed f
  | .send fd _ => Function.update owed fd []

def acts (s : State) : Step → List Act
  | .poll _ => []
  | .iterate o =>
    match s.cursor with
    | none => []
    | some i => (iterate s.server i o).2.2

def talk : Machine Talk Step where
  step t st :=
    { base := step t.base st
      owed := (acts t.base st).foldl (owedAfter t.base.opened) t.owed }
  ok t st := enabled t.base st

def sent : List Act → List (Nat × List UInt8) :=
  List.filterMap fun
    | .send fd bytes => some (fd, bytes)
    | _ => none

/-- Where a client is found writable, it is sent each message it is owed, and nothing else; no other
turn sends anything. -/
def Delivered (t : Talk) (st : Step) : Prop :=
  (∀ o i, st = .iterate o → t.base.cursor = some (i + 1) → Writable t.base.server (i + 1) →
    sent (acts t.base st) =
      (t.owed (t.base.server.pfd (i + 1)).fd).map fun bytes =>
        ((t.base.server.pfd (i + 1)).fd, bytes)) ∧
  (sent (acts t.base st) ≠ [] →
    ∃ o i, st = .iterate o ∧ t.base.cursor = some (i + 1) ∧ Writable t.base.server (i + 1))

/-- What a flush of the client would send. -/
def wouldSend (clients : Nat → ClientInfo) (p : PollFd) : List (List UInt8) :=
  if p.events.pollout then
    match (clients p.fd).wb with
    | none => []
    | some q => [cstr (clients q).rb 0]
  else
    []

def Agrees (s : Server) (owed : Nat → List (List UInt8)) : Prop :=
  ∀ j < s.currentClientNum, owed (s.pfd (j + 1)).fd = wouldSend s.clients (s.pfd (j + 1))

def Intact (t : Talk) : Prop := Agrees t.base.server t.owed

/-- No client leaves whose message another has still to be sent, unless the buffer that replaces its
own holds the same message; and no message for others arrives that has a NUL in it, or while one of
them has still to be sent another. -/
def Harmless (t : Talk) : Step → Prop
  | .poll _ => True
  | .iterate o => ∀ i, t.base.cursor = some (i + 1) →
      (Leaves t.base.server (i + 1) o →
        ∀ j < t.base.server.currentClientNum, j ≠ i →
          t.owed (t.base.server.pfd (j + 1)).fd ≠ [] →
          (t.base.server.clients (t.base.server.pfd (j + 1)).fd).wb =
            some (t.base.server.pfd (i + 1)).fd →
          cstr (t.base.server.clients
              (t.base.server.pfd t.base.server.currentClientNum).fd).rb 0 =
            cstr (t.base.server.clients (t.base.server.pfd (i + 1)).fd).rb 0) ∧
      ∀ bytes, Brings t.base.server (i + 1) o bytes →
        ∀ j < t.base.server.currentClientNum, j ≠ i →
          t.owed (t.base.server.pfd (j + 1)).fd = [] ∧ 0 ∉ bytes

instance (t : Talk) (st : Step) : Decidable (talk.ok t st) :=
  inferInstanceAs (Decidable (machine.ok t.base st))

def talkStart (listenfd maxClientNum : Nat) : Talk where
  base := start listenfd maxClientNum
  owed := fun _ => []

/-! ## The pointers -/

/-- The client asks to be written to just when it has a message, which is another's; and where it is
found writable without having asked, it has none. -/
structure Sound (clients : Nat → ClientInfo) (p : PollFd) : Prop where
  found : p.revents.pollout = true → p.events.pollout = true ∨ (clients p.fd).wb = none
  asked : p.events.pollout = true → ∃ q, (clients p.fd).wb = some q ∧ q ≠ p.fd

theorem wouldSend_eq {clients : Nat → ClientInfo} {p : PollFd} {q : Nat}
    (ha : p.events.pollout = true) (hq : (clients p.fd).wb = some q) :
    wouldSend clients p = [cstr (clients q).rb 0] := by simp [wouldSend, ha, hq]

theorem wouldSend_nil {clients : Nat → ClientInfo} {p : PollFd} (ha : p.events.pollout = false) :
    wouldSend clients p = [] := by simp [wouldSend, ha]

/-- A client's own entry and the text of the buffer it points to decide what it would be sent. -/
theorem wouldSend_congr {clients clients' : Nat → ClientInfo} {p p' : PollFd}
    (hfd : p'.fd = p.fd) (he : p'.events = p.events)
    (hwb : (clients' p.fd).wb = (clients p.fd).wb)
    (hrb : ∀ q, (clients p.fd).wb = some q → p.events.pollout = true →
      cstr (clients' q).rb 0 = cstr (clients q).rb 0) :
    wouldSend clients' p' = wouldSend clients p := by
  cases ha : p.events.pollout with
  | false => rw [wouldSend_nil ha, wouldSend_nil (he ▸ ha)]
  | true =>
    cases hq : (clients p.fd).wb with
    | none => simp [wouldSend, hfd, he, hwb, hq]
    | some q => simp [wouldSend, hfd, he, hwb, hq, hrb q hq ha]

theorem Sound.congr {clients clients' : Nat → ClientInfo} {p p' : PollFd} (h : Sound clients p)
    (hfd : p'.fd = p.fd) (he : p'.events = p.events) (hr : p'.revents = p.revents)
    (hwb : (clients' p.fd).wb = (clients p.fd).wb) : Sound clients' p' := by
  constructor
  · rw [hfd, he, hr, hwb]
    exact h.found
  · rw [hfd, he, hwb]
    exact h.asked

theorem cstr_message (rb bytes : List UInt8) :
    cstr (overwrite rb 0 (bytes ++ [0])) 0 = cut bytes := by
  simp [cstr, overwrite, List.append_assoc, cut_append_nul]

theorem cut_eq_self {bytes : List UInt8} : cut bytes = bytes ↔ (0 : UInt8) ∉ bytes := by
  constructor
  · intro h
    rw [← h]
    exact not_mem_cut bytes
  · exact cut_of_not_mem

/-! ## One turn -/

def Sounds (s : Server) : Prop := ∀ j < s.currentClientNum, Sound s.clients (s.pfd (j + 1))

section
variable {lfd cap : Nat} {s : Server} {opened : List Nat} {owed : Nat → List (List UInt8)}

theorem holds_inj (h : Holds lfd cap s opened) {j k : Nat} (hj : j < s.currentClientNum)
    (hk : k < s.currentClientNum) (hne : j ≠ k) : (s.pfd (j + 1)).fd ≠ (s.pfd (k + 1)).fd := by
  have hnd : (fds s).Nodup := h.clients.nodup_iff.mpr (List.nodup_cons.mp h.nodup).2
  intro e
  exact hne (List.inj_on_of_nodup_map hnd (List.mem_range.mpr hj) (List.mem_range.mpr hk) e)

/-- The clients left after a removal are the others. -/
theorem forall_removeClient (φ : PollFd → Prop) {i : Nat} (hi : i < s.currentClientNum) :
    (∀ j < (removeClient s (i + 1)).currentClientNum, φ ((removeClient s (i + 1)).pfd (j + 1))) ↔
      ∀ j < s.currentClientNum, j ≠ i → φ (s.pfd (j + 1)) := by
  have hlast : s.currentClientNum - 1 + 1 = s.currentClientNum := by omega
  simp only [removeClient]
  constructor
  · intro h j hj hne
    by_cases hjl : j = s.currentClientNum - 1
    · have hjl' : j + 1 = s.currentClientNum := by omega
      have := h i (by omega)
      rwa [Function.update_self, ← hjl'] at this
    · have := h j (by omega)
      rwa [Function.update_of_ne (by omega)] at this
  · intro h j hj
    by_cases hji : j = i
    · subst hji
      have := h (s.currentClientNum - 1) (by omega) (by omega)
      rwa [Function.update_self, ← hlast]
    · rw [Function.update_of_ne (by omega)]
      exact h j (by omega) hji

theorem turn_removeClient (h : Holds lfd cap s opened) (hs : Sounds s) {i : Nat}
    (hi : i < s.currentClientNum) :
    Sounds (removeClient s (i + 1)) ∧ (Agrees s owed →
      (Agrees (removeClient s (i + 1)) (Function.update owed (s.pfd (i + 1)).fd []) ↔
        ∀ j < s.currentClientNum, j ≠ i → owed (s.pfd (j + 1)).fd ≠ [] →
          (s.clients (s.pfd (j + 1)).fd).wb = some (s.pfd (i + 1)).fd →
          cstr (s.clients (s.pfd s.currentClientNum).fd).rb 0 =
            cstr (s.clients (s.pfd (i + 1)).fd).rb 0)) := by
  let clients := (removeClient s (i + 1)).clients
  have hother : ∀ f, f ≠ (s.pfd (i + 1)).fd → clients f = s.clients f := by
    intro f hf
    simp [clients, removeClient, hf]
  have hself : clients (s.pfd (i + 1)).fd = s.clients (s.pfd s.currentClientNum).fd := by
    simp [clients, removeClient]
  constructor
  · refine (forall_removeClient (Sound clients) hi).mpr fun j hj hne => ?_
    exact (hs j hj).congr rfl rfl rfl (congrArg ClientInfo.wb (hother _ (holds_inj h hj hi hne)))
  · intro ha
    refine (forall_removeClient (fun p => Function.update owed (s.pfd (i + 1)).fd [] p.fd =
      wouldSend clients p) hi).trans ?_
    refine forall_congr' fun j => forall_congr' fun hj => forall_congr' fun hne => ?_
    have hfd := holds_inj h hj hi hne
    have hsj := hs j hj
    have haj := ha j hj
    rw [Function.update_of_ne hfd]
    cases hout : (s.pfd (j + 1)).events.pollout with
    | false =>
      rw [wouldSend_nil hout] at haj ⊢
      simp [haj]
    | true =>
      obtain ⟨q, hq, -⟩ := hsj.asked hout
      rw [wouldSend_eq hout hq] at haj
      rw [wouldSend_eq hout ((congrArg ClientInfo.wb (hother _ hfd)).trans hq), haj]
      by_cases hqx : q = (s.pfd (i + 1)).fd
      · subst hqx
        rw [hself]
        simp [hq, eq_comm]
      · rw [hother q hqx]
        simp [hq, hqx]

/-! A message of client `i`, whose descriptor is `x`. -/

section
variable {i x : Nat} {bytes : List UInt8}

/-- The sender's own slot and pointer stay. -/
theorem receive_own (bytes : List UInt8) (hx : (s.pfd (i + 1)).fd = x) :
    (receive s x bytes).pfd (i + 1) = s.pfd (i + 1) ∧
      ((receive s x bytes).clients x).wb = (s.clients x).wb := by
  have hf := receive_forwarded s x bytes
  exact ⟨hf.rest _ fun _ _ _ => hx, by simpa using hf.sender⟩

/-- Every other client is asked to send, from the sender's buffer. -/
theorem receive_other (bytes : List UInt8) (h : Holds lfd cap s opened)
    (hi : i < s.currentClientNum) (hx : (s.pfd (i + 1)).fd = x) {j : Nat}
    (hj : j < s.currentClientNum) (hji : j ≠ i) :
    (s.pfd (j + 1)).fd ≠ x ∧ (receive s x bytes).pfd (j + 1) = asked (s.pfd (j + 1)) ∧
      ((receive s x bytes).clients (s.pfd (j + 1)).fd).wb = some x := by
  have hne : (s.pfd (j + 1)).fd ≠ x := hx ▸ holds_inj h hj hi hji
  exact ⟨hne, (receive_forwarded s x bytes).others j hj hne⟩

theorem receive_fd (h : Holds lfd cap s opened) (hi : i < s.currentClientNum)
    (hx : (s.pfd (i + 1)).fd = x) {j : Nat} (hj : j < s.currentClientNum) :
    ((receive s x bytes).pfd (j + 1)).fd = (s.pfd (j + 1)).fd := by
  by_cases hji : j = i
  · rw [hji, (receive_own bytes hx).1]
  · rw [(receive_other bytes h hi hx hj hji).2.1]
    rfl

theorem wouldSend_receive_own (hs : Sound s.clients (s.pfd (i + 1)))
    (hx : (s.pfd (i + 1)).fd = x) :
    wouldSend (receive s x bytes).clients ((receive s x bytes).pfd (i + 1)) =
      wouldSend s.clients (s.pfd (i + 1)) := by
  obtain ⟨hown, hwb⟩ := receive_own (s := s) bytes hx
  refine wouldSend_congr (by rw [hown]) (by rw [hown]) (by rw [hx, hwb]) ?_
  intro q hq hout
  obtain ⟨q', hq', hqx⟩ := hs.asked hout
  obtain rfl : q = q' := Option.some.inj (hq.symm.trans hq')
  have hqx' : q ≠ x := hx ▸ hqx
  have hrb := (receive_forwarded s x bytes).rb q
  rw [hrb]
  simp [hqx']

theorem wouldSend_receive_other (h : Holds lfd cap s opened) (hi : i < s.currentClientNum)
    (hx : (s.pfd (i + 1)).fd = x) {j : Nat} (hj : j < s.currentClientNum) (hji : j ≠ i) :
    wouldSend (receive s x bytes).clients ((receive s x bytes).pfd (j + 1)) = [cut bytes] := by
  obtain ⟨_, hp, hw⟩ := receive_other bytes h hi hx hj hji
  have hmsg : cstr ((receive s x bytes).clients x).rb 0 = cut bytes := by
    rw [(receive_forwarded s x bytes).rb x]
    simpa using cstr_message _ bytes
  rw [hp, wouldSend_eq rfl (show ((receive s x bytes).clients (asked (s.pfd (j + 1))).fd).wb =
    some x from hw), hmsg]

theorem sounds_receive (h : Holds lfd cap s opened) (hs : Sounds s) (hi : i < s.currentClientNum)
    (hx : (s.pfd (i + 1)).fd = x) : Sounds (receive s x bytes) := by
  intro j hj
  rw [(receive_forwarded s x bytes).currentClientNum] at hj
  by_cases hji : j = i
  · subst hji
    obtain ⟨hown, hwb⟩ := receive_own (s := s) bytes hx
    exact (hs j hj).congr (by rw [hown]) (by rw [hown]) (by rw [hown]) (by rw [hx, hwb])
  · obtain ⟨hne, hp, hw⟩ := receive_other bytes h hi hx hj hji
    rw [hp]
    exact ⟨fun _ => .inl rfl, fun _ => ⟨x, hw, hne.symm⟩⟩

/-- The message replaces whatever the others had still to be sent. -/
theorem agrees_receive_iff (h : Holds lfd cap s opened) (hs : Sounds s)
    (hi : i < s.currentClientNum) (hx : (s.pfd (i + 1)).fd = x) (ha : Agrees s owed) :
    Agrees (receive s x bytes) (owedAfter opened owed (.recv x bytes)) ↔
      ∀ j < s.currentClientNum, j ≠ i → owed (s.pfd (j + 1)).fd = [] ∧ 0 ∉ bytes := by
  have hnum := (receive_forwarded s x bytes).currentClientNum
  have howed : ∀ j < s.currentClientNum, j ≠ i →
      owedAfter opened owed (.recv x bytes) (s.pfd (j + 1)).fd =
        owed (s.pfd (j + 1)).fd ++ [bytes] := by
    intro j hj hji
    simp [owedAfter, (holds_client h hj).1, (receive_other bytes h hi hx hj hji).1]
  constructor
  · intro hag j hj hji
    have := hag j (hnum ▸ hj)
    rw [receive_fd h hi hx hj, howed j hj hji, wouldSend_receive_other h hi hx hj hji] at this
    obtain ⟨hnil, hcut⟩ := (List.append_eq_singleton_iff.mp this).resolve_right (by simp)
    exact ⟨hnil, cut_eq_self.mp (List.singleton_inj.mp hcut).symm⟩
  · intro hq j hj
    have hj' : j < s.currentClientNum := hnum ▸ hj
    rw [receive_fd h hi hx hj']
    by_cases hji : j = i
    · subst hji
      rw [wouldSend_receive_own (hs j hj') hx, ← ha j hj']
      simp [owedAfter, hx]
    · obtain ⟨hnil, hnul⟩ := hq j hj' hji
      rw [howed j hj' hji, wouldSend_receive_other h hi hx hj' hji, hnil, cut_eq_self.mpr hnul]
      rfl

end

theorem turn_receive (h : Holds lfd cap s opened) (hs : Sounds s) {i : Nat}
    (hi : i < s.currentClientNum) (bytes : List UInt8) :
    Sounds (receive s (s.pfd (i + 1)).fd bytes) ∧ (Agrees s owed →
      (Agrees (receive s (s.pfd (i + 1)).fd bytes)
          (owedAfter opened owed (.recv (s.pfd (i + 1)).fd bytes)) ↔
        ∀ j < s.currentClientNum, j ≠ i → owed (s.pfd (j + 1)).fd = [] ∧ 0 ∉ bytes)) :=
  ⟨sounds_receive h hs hi rfl, agrees_receive_iff h hs hi rfl⟩

theorem turn_flush (h : Holds lfd cap s opened) (hs : Sounds s) {i : Nat}
    (hi : i < s.currentClientNum) :
    Sounds (flush s (i + 1)) ∧ (Agrees s owed →
      Agrees (flush s (i + 1)) (Function.update owed (s.pfd (i + 1)).fd [])) := by
  have hrb : ∀ q, ((flush s (i + 1)).clients q).rb = (s.clients q).rb := by
    intro q
    by_cases hq : q = (s.pfd (i + 1)).fd
    · subst hq
      simp [flush]
    · simp [flush, hq]
  have hother : ∀ j < s.currentClientNum, j ≠ i →
      (flush s (i + 1)).pfd (j + 1) = s.pfd (j + 1) ∧
        ((flush s (i + 1)).clients (s.pfd (j + 1)).fd).wb = (s.clients (s.pfd (j + 1)).fd).wb := by
    intro j hj hji
    have hslot : j + 1 ≠ i + 1 := by omega
    simp only [flush, Function.update_of_ne hslot, Function.update_of_ne (holds_inj h hj hi hji),
      and_self]
  constructor
  · intro j hj
    by_cases hji : j = i
    · subst hji
      constructor <;> simp [flush]
    · obtain ⟨hp, hw⟩ := hother j hj hji
      exact (hs j hj).congr (by rw [hp]) (by rw [hp]) (by rw [hp]) hw
  · intro ha j hj
    by_cases hji : j = i
    · subst hji
      rw [wouldSend_nil (by simp [flush])]
      simp [flush]
    · obtain ⟨hp, hw⟩ := hother j hj hji
      rw [wouldSend_congr (by rw [hp]) (by rw [hp]) hw fun q _ _ => by rw [hrb q], hp,
        Function.update_of_ne (holds_inj h hj hi hji)]
      exact ha j hj

theorem turn_addClient (h : Holds lfd cap s opened) (hs : Sounds s) {connfd : Nat}
    (ho : connfd ∉ opened) :
    Sounds (addClient s connfd) ∧ (Agrees s owed →
      Agrees (addClient s connfd) (Function.update owed connfd [])) := by
  have hold : ∀ j < s.currentClientNum, (addClient s connfd).pfd (j + 1) = s.pfd (j + 1) := by
    intro j hj
    have hne : j ≠ s.currentClientNum := by omega
    simp [addClient, hne]
  have hnew : (addClient s connfd).pfd (s.currentClientNum + 1) =
      ⟨connfd, { Events.zero with pollin := true, pollrdhup := true }, .zero⟩ := by
    simp [addClient]
  constructor
  · intro j hj
    rcases Nat.lt_succ_iff_lt_or_eq.mp hj with hlt | rfl
    · rw [hold j hlt]
      exact hs j hlt
    · rw [hnew]
      constructor <;> simp [Events.zero]
  · intro ha j hj
    rcases Nat.lt_succ_iff_lt_or_eq.mp hj with hlt | rfl
    · have hne : (s.pfd (j + 1)).fd ≠ connfd := fun e => ho (e ▸ (holds_client h hlt).1)
      rw [hold j hlt, Function.update_of_ne hne]
      exact ha j hlt
    · rw [hnew, wouldSend_nil (by rfl)]
      simp

/-- A connection that is refused is owed nothing, as before. -/
theorem agrees_update (h : Holds lfd cap s opened) (ha : Agrees s owed) {connfd : Nat}
    (ho : connfd ∉ opened) (msgs : List (List UInt8)) :
    Agrees s (Function.update owed connfd msgs) := by
  intro j hj
  have hne : (s.pfd (j + 1)).fd ≠ connfd := fun e => ho (e ▸ (holds_client h hj).1)
  rw [Function.update_of_ne hne]
  exact ha j hj

theorem turn_polled (hs : Sounds s) {result : Option (Nat → Events)}
    (hr : ∀ r ∈ result, ∀ j ≤ s.currentClientNum, Reported (s.pfd j).events (r j)) :
    Sounds (polled s result) ∧ (Agrees s owed → Agrees (polled s result) owed) := by
  cases result with
  | none => exact ⟨hs, id⟩
  | some r =>
    constructor
    · intro j hj
      have hj' : j + 1 ≤ s.currentClientNum := hj
      have hrep := (hr r rfl (j + 1) hj').2.2
      have hsj := hs j hj
      simp only [polled, hj', if_true]
      exact ⟨fun hout => .inl (hrep hout), hsj.asked⟩
    · intro ha j hj
      have hj' : j + 1 ≤ s.currentClientNum := hj
      have haj := ha j hj
      simp only [polled, hj', if_true]
      exact haj

end

/-! ## Runs -/

structure TalkInv (lfd cap : Nat) (t : Talk) : Prop where
  base : Inv lfd cap t.base
  sounds : Sounds t.base.server

section
variable {lfd cap : Nat} {t : Talk}

theorem ListenTurn.sends {s s' : Server} {i next : Nat} {o : Outcome} {as : List Act}
    (ht : ListenTurn s i o (s', next, as)) : sent as = [] := by
  cases ht with
  | idle => rfl
  | refused connfd ha => rfl
  | joined connfd ha h => rfl

theorem Turn.sends {s s' : Server} {i next : Nat} {o : Outcome} {as : List Act}
    (ht : Turn s i o (s', next, as)) (hsent : sent as ≠ []) : Writable s i := by
  cases ht with
  | idle hl hb hw => exact absurd rfl hsent
  | left hl hb hw => exact absurd rfl hsent
  | received hl hb hw => exact absurd rfl hsent
  | flushed hl hb hw hq => exact hw

/-- What a turn of the listening socket does to the pointers and to the messages owed. -/
theorem talk_listen (h : TalkInv lfd cap t) {o : Outcome} (hc : t.base.cursor = some 0)
    (ho : ∀ connfd ∈ o.accept, connfd ∉ t.base.opened)
    {s : Server} {next : Nat} {as : List Act} (hacts : acts t.base (.iterate o) = as)
    (ht : ListenTurn t.base.server 0 o (s, next, as)) :
    Sounds s ∧ (Intact t →
      (Agrees s (as.foldl (owedAfter t.base.opened) t.owed) ↔ Harmless t (.iterate o)) ∧
        Delivered t (.iterate o)) := by
  have hharm : Harmless t (.iterate o) := fun i hi => by simp [hc] at hi
  have hdel : Delivered t (.iterate o) :=
    ⟨fun _ i _ hi => by simp [hc] at hi, fun hsent => absurd (hacts ▸ ht.sends) hsent⟩
  have hh := h.base.holds
  cases ht with
  | idle => exact ⟨h.sounds, fun ha => ⟨⟨fun _ => hharm, fun _ => ha⟩, hdel⟩⟩
  | refused connfd hacc =>
    refine ⟨h.sounds, fun ha => ⟨⟨fun _ => hharm, fun _ => ?_⟩, hdel⟩⟩
    have hnot := ho connfd hacc
    exact agrees_update hh (agrees_update hh ha hnot []) hnot []
  | joined connfd hacc hlt =>
    obtain ⟨hsound, hag⟩ := turn_addClient hh h.sounds (ho connfd hacc)
    exact ⟨hsound, fun ha => ⟨⟨fun _ => hharm, fun _ => hag ha⟩, hdel⟩⟩

/-- The client at `i` leaves, and every message that is owed to another stays in its buffer. -/
def LeavesNone (t : Talk) (i : Nat) : Prop :=
  ∀ j < t.base.server.currentClientNum, j ≠ i →
    t.owed (t.base.server.pfd (j + 1)).fd ≠ [] →
    (t.base.server.clients (t.base.server.pfd (j + 1)).fd).wb =
      some (t.base.server.pfd (i + 1)).fd →
    cstr (t.base.server.clients (t.base.server.pfd t.base.server.currentClientNum).fd).rb 0 =
      cstr (t.base.server.clients (t.base.server.pfd (i + 1)).fd).rb 0

/-- The bytes come from the client at `i`, and no other is still owed a message. -/
def DisturbsNone (t : Talk) (i : Nat) (bytes : List UInt8) : Prop :=
  ∀ j < t.base.server.currentClientNum, j ≠ i →
    t.owed (t.base.server.pfd (j + 1)).fd = [] ∧ 0 ∉ bytes

/-- Where the scan is, that is the client it concerns. -/
theorem harmless_iff {o : Outcome} {i : Nat} (hc : t.base.cursor = some (i + 1)) :
    Harmless t (.iterate o) ↔
      (Leaves t.base.server (i + 1) o → LeavesNone t i) ∧
        ∀ bytes, Brings t.base.server (i + 1) o bytes → DisturbsNone t i bytes := by
  constructor
  · exact fun h => h i hc
  · intro h j hj
    rw [hc] at hj
    obtain rfl := Nat.succ.inj (Option.some.inj hj)
    exact h

theorem delivered_of {o : Outcome} {i : Nat} (hc : t.base.cursor = some (i + 1))
    {s : Server} {next : Nat} {as : List Act} (hacts : acts t.base (.iterate o) = as)
    (ht : Turn t.base.server (i + 1) o (s, next, as))
    (h : Writable t.base.server (i + 1) → sent as =
      (t.owed (t.base.server.pfd (i + 1)).fd).map fun bytes =>
        ((t.base.server.pfd (i + 1)).fd, bytes)) : Delivered t (.iterate o) := by
  subst hacts
  refine ⟨?_, fun hsent => ⟨o, i, rfl, hc, ht.sends hsent⟩⟩
  intro o' j ho' hj hwr
  rw [hc] at hj
  obtain rfl := Nat.succ.inj (Option.some.inj hj)
  exact h hwr

/-- And what a turn of a client does, and what it sends the client if it flushes it. -/
theorem talk_client (h : TalkInv lfd cap t) {o : Outcome} {i : Nat}
    (hc : t.base.cursor = some (i + 1)) {s : Server} {next : Nat} {as : List Act}
    (hacts : acts t.base (.iterate o) = as) (ht : Turn t.base.server (i + 1) o (s, next, as)) :
    Sounds s ∧ (Intact t →
      (Agrees s (as.foldl (owedAfter t.base.opened) t.owed) ↔ Harmless t (.iterate o)) ∧
        Delivered t (.iterate o)) := by
  have hh := h.base.holds
  have hle := h.base.cursor (i + 1) hc
  have hdel := delivered_of hc hacts ht
  rw [harmless_iff hc]
  cases ht with
  | idle hl hb hw =>
    refine ⟨h.sounds, fun ha => ⟨iff_of_true ha ?_, hdel fun hwr => ?_⟩⟩
    · exact ⟨fun hl' => absurd hl' hl, fun bytes hb' => absurd hb' (hb bytes)⟩
    · have hwb := hw hwr
      have hquiet : (t.base.server.pfd (i + 1)).events.pollout = false := by
        by_contra hout
        obtain ⟨q, hq, -⟩ := (h.sounds i hle).asked (by simpa using hout)
        rw [hwb] at hq
        cases hq
      rw [ha i hle, wouldSend_nil hquiet]
      rfl
  | left hl hb hw =>
    obtain ⟨hsound, hag⟩ := turn_removeClient hh h.sounds hle
    refine ⟨hsound, fun ha => ⟨(hag ha).trans ⟨fun hq => ?_, fun hq => hq.1 hl⟩,
      hdel fun hwr => absurd hwr hw⟩⟩
    exact ⟨fun _ => hq, fun bytes hb' => absurd hb' (hb bytes)⟩
  | @received bytes hl hb hw =>
    obtain ⟨hsound, hag⟩ := @turn_receive _ _ _ _ t.owed hh h.sounds _ hle bytes
    refine ⟨hsound, fun ha => ⟨(hag ha).trans ⟨fun hq => ?_, fun hq => ?_⟩,
      hdel fun hwr => absurd hwr hw⟩⟩
    · refine ⟨fun hl' => absurd hl' hl, fun bytes' hb' => ?_⟩
      obtain rfl := (hb bytes').mp hb'
      exact hq
    · exact hq.2 bytes ((hb bytes).mpr rfl)
  | @flushed q hl hb hw hq =>
    obtain ⟨hsound, hag⟩ := @turn_flush _ _ _ _ t.owed hh h.sounds _ hle
    refine ⟨hsound, fun ha => ⟨iff_of_true (hag ha) ?_, hdel fun _ => ?_⟩⟩
    · exact ⟨fun hl' => absurd hl' hl, fun bytes hb' => absurd hb' (hb bytes)⟩
    · have hasked : (t.base.server.pfd (i + 1)).events.pollout = true := by
        refine ((h.sounds i hle).found hw.2.2.2).resolve_right ?_
        rw [hq]
        exact fun e => nomatch e
      rw [ha i hle, wouldSend_eq hasked hq]
      rfl

theorem talk_iterate (h : TalkInv lfd cap t) {o : Outcome} (hok : enabled t.base (.iterate o)) :
    Sounds (talk.step t (.iterate o)).base.server ∧ (Intact t →
      (Intact (talk.step t (.iterate o)) ↔ Harmless t (.iterate o)) ∧
        Delivered t (.iterate o)) := by
  obtain ⟨hne, ho⟩ := hok
  obtain ⟨c, hc⟩ := Option.ne_none_iff_exists'.mp hne
  have hle := h.base.cursor c hc
  have hh := h.base.holds
  rcases e : iterate t.base.server c o with ⟨server, c', as⟩
  have hserver : (talk.step t (.iterate o)).base.server = server := by
    simp [talk, step, hc, e]
  have hacts : acts t.base (.iterate o) = as := by simp [acts, hc, e]
  have hintact : Intact (talk.step t (.iterate o)) ↔
      Agrees server (as.foldl (owedAfter t.base.opened) t.owed) := by
    show Agrees (talk.step t (.iterate o)).base.server
      ((acts t.base (.iterate o)).foldl (owedAfter t.base.opened) t.owed) ↔ _
    rw [hserver, hacts]
  rw [hserver, hintact]
  cases c with
  | zero =>
    have ht := iterate_listen (hh.first.trans hh.listenfd.symm) hh.quiet.1 hh.quiet.2 o
    rw [e] at ht
    exact talk_listen h hc (fun connfd hacc => (ho connfd hacc).2) hacts ht
  | succ i =>
    have ht := iterate_client (holds_client hh hle).2 o
    rw [e] at ht
    exact talk_client h hc hacts ht

theorem talkInv_step (t : Talk) (st : Step) (h : TalkInv lfd cap t) (hok : talk.ok t st) :
    TalkInv lfd cap (talk.step t st) := by
  refine ⟨inv_step t.base st h.base hok, ?_⟩
  cases st with
  | poll result => exact (@turn_polled _ t.owed h.sounds result hok.2).1
  | iterate o => exact (talk_iterate h hok).1

theorem intact_step (t : Talk) (st : Step) (h : TalkInv lfd cap t) (hok : talk.ok t st)
    (ha : Intact t) : Intact (talk.step t st) ↔ Harmless t st := by
  cases st with
  | poll result => exact ⟨fun _ => trivial, fun _ => (turn_polled h.sounds hok.2).2 ha⟩
  | iterate o => exact ((talk_iterate h hok).2 ha).1

theorem delivered_step {st : Step} (h : TalkInv lfd cap t) (hok : talk.ok t st) (ha : Intact t) :
    Delivered t st := by
  cases st with
  | poll result => exact ⟨fun o i e => (by cases e), fun hsent => absurd rfl hsent⟩
  | iterate o => exact ((talk_iterate h hok).2 ha).2

theorem talkInv_start (lfd cap : Nat) : TalkInv lfd cap (talkStart lfd cap) :=
  ⟨inv_start lfd cap, fun j hj => absurd hj (Nat.not_lt_zero j)⟩

/-- A run whose steps are all harmless sends every message it receives, with the bytes received,
once to each other client that stays until it is flushed. In every run, what is about to be sent
is in each state what is owed just when each step is harmless. -/
theorem delivered_iff (listenfd maxClientNum : Nat) (steps : List Step)
    (hv : talk.Valid (talkStart listenfd maxClientNum) steps) :
    (talk.Each Harmless (talkStart listenfd maxClientNum) steps →
        talk.Each Delivered (talkStart listenfd maxClientNum) steps) ∧
      (talk.Always Intact (talkStart listenfd maxClientNum) steps ↔
        talk.Each Harmless (talkStart listenfd maxClientNum) steps) := by
  have hstart := talkInv_start listenfd maxClientNum
  have hintact : Intact (talkStart listenfd maxClientNum) :=
    fun j hj => absurd hj (Nat.not_lt_zero j)
  have hiff := Machine.always_iff_each talkInv_step intact_step hstart hintact hv
  refine ⟨fun hq => ?_, hiff⟩
  refine Machine.each_of_always talkInv_step ?_ hstart hv (hiff.mpr hq)
  intro t st h hok ha
  exact delivered_step h hok ha

/-- Two clients join, and the first sends a message that the second is flushed. -/
theorem delivered_iff_run :
    let readable : Events := { Events.zero with pollin := true }
    let writable : Events := { Events.zero with pollout := true }
    let idle : Step := .iterate ⟨none, .fail .again⟩
    let steps : List Step :=
      [.poll (some fun _ => readable), .iterate ⟨some 4, .fail .again⟩, idle,
        .poll (some fun j => if j = 0 then readable else .zero), .iterate ⟨some 5, .fail .again⟩,
        idle, idle,
        .poll (some fun j => if j = 1 then readable else .zero), idle,
        .iterate ⟨none, .data [97]⟩, idle,
        .poll (some fun j => if j = 2 then writable else .zero), idle, idle, idle]
    (talk.Each Harmless (talkStart 3 128) steps → talk.Each Delivered (talkStart 3 128) steps) ∧
      (talk.Always Intact (talkStart 3 128) steps ↔
        talk.Each Harmless (talkStart 3 128) steps) := by
  intro readable writable idle steps
  exact delivered_iff 3 128 steps (by decide +kernel)

/-- The first client sends two messages before the second is found writable: the second client is
sent the second message, and not the first. -/
theorem not_delivered :
    let readable : Events := { Events.zero with pollin := true }
    let writable : Events := { Events.zero with pollout := true }
    let idle : Step := .iterate ⟨none, .fail .again⟩
    let steps : List Step :=
      [.poll (some fun _ => readable), .iterate ⟨some 4, .fail .again⟩, idle,
        .poll (some fun j => if j = 0 then readable else .zero), .iterate ⟨some 5, .fail .again⟩,
        idle, idle,
        .poll (some fun j => if j = 1 then readable else .zero), idle,
        .iterate ⟨none, .data [97]⟩, idle,
        .poll (some fun j => if j = 1 then readable else .zero), idle,
        .iterate ⟨none, .data [98]⟩, idle,
        .poll (some fun j => if j = 2 then writable else .zero), idle, idle, idle]
    talk.Valid (talkStart 3 128) steps ∧ ¬ talk.Each Delivered (talkStart 3 128) steps := by
  intro readable writable idle steps
  refine ⟨by decide +kernel, ?_⟩
  intro h
  let before := steps.dropLast
  have hlast : Delivered (talk.run (talkStart 3 128) before) idle :=
    (Machine.each_append.mp (show talk.Each Delivered _ (before ++ [idle]) from h)).2.1
  have hcursor : (talk.run (talkStart 3 128) before).base.cursor = some 2 := by decide +kernel
  have hsent := hlast.1 _ 1 rfl hcursor ⟨by decide +kernel, by decide +kernel, by decide +kernel,
    by decide +kernel⟩
  revert hsent
  decide +kernel

end

end ServerPoll
end Unpvol1
