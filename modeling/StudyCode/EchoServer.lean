import Mathlib.Tactic

/-!
# The echo server

A client has a queue of buffers that were read and are to be written back. The
callback on_read appends a buffer, the callback on_write writes the rest of the
first buffer as far as the socket accepts it. Beside the client stand the bytes
that were read and written so far.
-/

namespace StudyCode.EchoServer

/-- BUFLEN. -/
def bufLen : ℕ := 1024

/-- A buffer of the queue. -/
structure Bufferq where
  /-- The bytes that were read. -/
  buf : List UInt8
  /-- The length of the buffer. -/
  len : ℕ
  /-- Where the next write starts. -/
  offset : ℕ

/-- What read returns. -/
inductive ReadResult where
  /-- Some bytes, as many as fit into a buffer. -/
  | bytes (bs : List UInt8) (pos : 0 < bs.length) (fits : bs.length ≤ bufLen)
  /-- The client has disconnected. -/
  | eof
  /-- An error. -/
  | error

/-- What write returns. -/
inductive WriteResult where
  /-- The socket accepts so many bytes, or all that are offered. -/
  | accepted (n : ℕ)
  /-- EINTR or EAGAIN. -/
  | again
  /-- Another error. -/
  | error

/-- A client and its socket. -/
structure Client where
  /-- The event ev_read is pending. -/
  evRead : Bool
  /-- The event ev_write is pending. -/
  evWrite : Bool
  /-- The queue. -/
  writeq : List Bufferq
  /-- The client was freed. -/
  freed : Bool
  /-- The server has left by err. -/
  exited : Bool
  /-- The bytes that were read. -/
  input : List UInt8
  /-- The bytes that were written. -/
  output : List UInt8

/-- The client after on_accept. -/
def onAccept : Client := ⟨true,false,[],false,false,[],[]⟩

/-- on_read. -/
def onRead (r : ReadResult) (c : Client) : Client :=
  match r with
  | .eof => {c with
      evRead := false
      freed := true}
  | .error => {c with
      evRead := false
      freed := true}
  | .bytes bs _ _ => {c with
      writeq := c.writeq++[⟨bs,bs.length,0⟩]
      evWrite := true
      input := c.input++bs}

/-- The bytes of a buffer that are offered to write. -/
def Bufferq.offered (b : Bufferq) : List UInt8 := (b.buf.take b.len).drop b.offset

/-- on_write. -/
def onWrite (r : WriteResult) (c : Client) : Client :=
  match c.writeq with
  | [] => c
  | b::q =>
    match r with
    | .again => {c with evWrite := true}
    | .error => {c with exited := true}
    | .accepted n =>
      let len := min n (b.len-b.offset)
      if b.offset+len < b.len then {c with
          writeq := {b with offset := b.offset+len}::q
          evWrite := true
          output := c.output++b.offered.take len}
      else {c with
          writeq := q
          output := c.output++b.offered.take len}

/-- The callbacks with what their system calls return. -/
inductive Callback where
  /-- on_read. -/
  | read (r : ReadResult)
  /-- on_write. -/
  | write (r : WriteResult)

/-- A callback of a client, which is not called after the client was freed or
the server has left. -/
def Client.call (c : Client) (k : Callback) : Client :=
  if c.freed || c.exited then c
  else
    match k with
    | .read r => onRead r c
    | .write r => onWrite r c

/-- The client after some callbacks, in any order. -/
def Client.calls (c : Client) (ks : List Callback) : Client := ks.foldl Client.call c

/-! ## The stream -/

/-- The unwritten rest of a queue: the first buffer from its offset on, the
others whole. -/
def rest : List Bufferq → List UInt8
  | [] => []
  | b::q => b.buf.drop b.offset++q.flatMap Bufferq.buf

/-- The bytes that were read and not written. -/
def Client.unwritten (c : Client) : List UInt8 := rest c.writeq

/-- A buffer whose rest is not empty. -/
structure Bufferq.Ok (b : Bufferq) : Prop where
  /-- The length. -/
  len : b.len=b.buf.length
  /-- The offset. -/
  offset : b.offset < b.len

/-- The first buffer of a queue may be written in part, the others are not. -/
def QueueOk : List Bufferq → Prop
  | [] => True
  | b::q => b.Ok ∧ ∀ x ∈ q,x.Ok ∧ x.offset=0

/-- The written bytes and the unwritten rest are what was read. -/
structure Conserves (c : Client) : Prop where
  /-- The queue. -/
  queue : QueueOk c.writeq
  /-- The stream. -/
  stream : c.output++c.unwritten=c.input

/-- A new client has lost nothing. -/
theorem conserves_onAccept : Conserves onAccept := ⟨trivial,rfl⟩

/-- A fresh buffer behind the others. -/
theorem QueueOk.append {q : List Bufferq} {b : Bufferq} (h : QueueOk q) (hb : b.Ok)
    (hz : b.offset=0) : QueueOk (q++[b]) := by
  cases q with
  | nil => exact ⟨hb,fun x hx => absurd hx List.not_mem_nil⟩
  | cons a q =>
    refine ⟨h.1,fun x hx => ?_⟩
    rcases List.mem_append.mp hx with hx|hx
    · exact h.2 x hx
    · rw [List.mem_singleton.mp hx]
      exact ⟨hb,hz⟩

/-- The buffers behind the first. -/
theorem QueueOk.tail {q : List Bufferq} {b : Bufferq} (h : QueueOk (b::q)) : QueueOk q := by
  cases q with
  | nil => trivial
  | cons a q => exact ⟨(h.2 a List.mem_cons_self).1,fun x hx => h.2 x (List.mem_cons_of_mem a hx)⟩

/-- What is left grows by the new buffer. -/
theorem rest_append {q : List Bufferq} {bs : List UInt8} :
    rest (q++[⟨bs,bs.length,0⟩])=rest q++bs := by
  cases q with
  | nil => simp [rest]
  | cons a q => simp [rest]

/-- Behind the first buffer all is left. -/
theorem rest_tail {q : List Bufferq} {b : Bufferq} (h : QueueOk (b::q)) :
    rest q=q.flatMap Bufferq.buf := by
  cases q with
  | nil => rfl
  | cons a q =>
    rw [rest,(h.2 a List.mem_cons_self).2,List.drop_zero,List.flatMap_cons]

/-- A read puts its bytes into the queue. -/
theorem Conserves.onRead {c : Client} (h : Conserves c) (r : ReadResult) :
    Conserves (onRead r c) := by
  cases r with
  | eof => exact ⟨h.queue,h.stream⟩
  | error => exact ⟨h.queue,h.stream⟩
  | bytes bs pos fits =>
    have hb : Bufferq.Ok ⟨bs,bs.length,0⟩ := ⟨rfl,pos⟩
    refine ⟨h.queue.append hb rfl,?_⟩
    have hs : c.output++rest c.writeq=c.input := h.stream
    show c.output++rest (c.writeq++[⟨bs,bs.length,0⟩])=c.input++bs
    rw [rest_append,←List.append_assoc,hs]

/-- What is offered is the rest of the buffer. -/
theorem offered_eq {b : Bufferq} (h : b.Ok) : b.offered=b.buf.drop b.offset := by
  unfold Bufferq.offered
  rw [h.len,List.take_length]

/-- A write takes what was written out of the queue. -/
theorem Conserves.onWrite {c : Client} (h : Conserves c) (r : WriteResult) :
    Conserves (onWrite r c) := by
  have hq := h.queue
  have hs : c.output++rest c.writeq=c.input := h.stream
  unfold EchoServer.onWrite
  split
  · exact h
  · rename_i b q hw
    rw [hw] at hq hs
    have hlen := hq.1.len
    have hoff := hq.1.offset
    cases r with
    | again => exact ⟨h.queue,h.stream⟩
    | error => exact ⟨h.queue,h.stream⟩
    | accepted n =>
      dsimp only
      rw [offered_eq hq.1]
      split
      · rename_i hlt
        refine ⟨⟨⟨hlen,hlt⟩,hq.2⟩,?_⟩
        show c.output++(b.buf.drop b.offset).take _++(b.buf.drop (b.offset+_)++_)=c.input
        rw [←List.drop_drop,List.append_assoc,←List.append_assoc (List.take _ _),
          List.take_append_drop]
        exact hs
      · rename_i hge
        refine ⟨hq.tail,?_⟩
        show c.output++(b.buf.drop b.offset).take _++rest q=c.input
        have hall : (b.buf.drop b.offset).length ≤ min n (b.len-b.offset) := by
          rw [List.length_drop]
          omega
        rw [List.take_of_length_le hall,rest_tail hq,List.append_assoc]
        exact hs

/-- Every callback conserves the bytes. -/
theorem Conserves.call {c : Client} (h : Conserves c) (k : Callback) : Conserves (c.call k) := by
  unfold Client.call
  split
  · exact h
  · cases k with
    | read r => exact h.onRead r
    | write r => exact h.onWrite r

/-- So does every run. -/
theorem Conserves.calls {c : Client} (h : Conserves c) (ks : List Callback) :
    Conserves (c.calls ks) := by
  induction ks generalizing c with
  | nil => exact h
  | cons k ks ih => exact ih (h.call k)

/-- After any callbacks in any order, the bytes that were written and the
unwritten rest of the queue are the bytes that were read. -/
theorem stream_conserved (ks : List Callback) :
    (onAccept.calls ks).output++(onAccept.calls ks).unwritten=(onAccept.calls ks).input ∧
      (onAccept.calls ks).output <+: (onAccept.calls ks).input := by
  have h := (conserves_onAccept.calls ks).stream
  exact ⟨h,⟨_,h⟩⟩

end StudyCode.EchoServer
