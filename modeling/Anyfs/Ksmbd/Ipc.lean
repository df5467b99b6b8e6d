import Anyfs.Lib.Fields
import Anyfs.Lib.Rounds

/-!
# The netlink messages of ksmbd

`ipc_msg_send_internal` puts a message into a netlink frame with one attribute, and
`ipc_process_event` looks through the attributes of a frame. A pointer into the receive buffer is
the memory from there on: the loop goes by the lengths in the frame, not by what was received.
-/

namespace Anyfs

open List LittleEndian Rounds

/-- What the headers of ksmbd-tools define: `KSMBD_IPC_MAX_MESSAGE_SIZE`, the size of
`struct ksmbd_ipc_msg`, and `KSMBD_GENL_VERSION`. -/
structure IpcConfig where
  maxMessageSize : ℕ
  msgSize : ℕ
  version : UInt8

variable (cfg : IpcConfig)

def IpcConfig.bufSize : ℕ := cfg.maxMessageSize + 256

/-- `struct ksmbd_ipc_msg`. -/
structure IpcMsg where
  type : ℕ
  payload : Bytes
  deriving DecidableEq

def nlaAlign (len : ℕ) : ℕ := (len + 3) / 4 * 4

/-- A netlink attribute with its padding. -/
structure NlAttr where
  nlaType : ℕ
  payload : Bytes
  pad : Bytes

open NlAttr

/-- `struct nlattr_raw` and the payload. -/
def NlAttr.head (a : NlAttr) : Bytes :=
  encode 2 (4 + a.payload.length) ++ (encode 2 a.nlaType ++ a.payload)

def NlAttr.bytes (a : NlAttr) : Bytes := a.head ++ a.pad

/-- Its fields fit and the padding is right. -/
structure NlAttr.WellFormed (a : NlAttr) : Prop where
  type_lt : a.nlaType < 2 ^ 16
  length_lt : 4 + a.payload.length < 2 ^ 16
  pad : 4 + a.payload.length + a.pad.length = nlaAlign (4 + a.payload.length)

/-- `struct nlmsghdr_raw` and `struct genlmsghdr_raw`; `info` are the flags, the sequence number and
the port. -/
def nlHeader (len nlmsgType : ℕ) (info : Bytes) (cmd version : UInt8) (reserved : Bytes) : Bytes :=
  encode 4 len ++ (encode 2 nlmsgType ++ (info ++ (cmd :: version :: reserved)))

/-- `genl_family_id` as a 16-bit number. -/
def familyType (family : ℤ) : ℕ := (family % 2 ^ 16).toNat

/-- `ipc_msg_alloc`: does it give memory? `malloc` is what `g_try_malloc0` says. -/
def ipcMsgAlloc (malloc : Bool) (sz : ℕ) : Bool :=
  decide (sz + cfg.msgSize + 1 ≤ cfg.maxMessageSize) && malloc

/-- `ipc_msg_send_internal`: the frame that is sent. -/
def ipcMsgSendInternal (family : ℤ) (nlSeq flags : ℕ) (msg : IpcMsg) : Bytes :=
  let nlaTotal := 4 + msg.payload.length
  nlHeader (20 + nlaAlign nlaTotal) (familyType family)
    (encode 2 flags ++ encode 4 nlSeq ++ encode 4 0) (UInt8.ofNat msg.type) cfg.version [0, 0] ++
    (head ⟨msg.type, msg.payload, []⟩ ++ replicate (nlaAlign nlaTotal - nlaTotal) 0)

/-- A round of the loop over the attributes: it ends with the payload and its size, or without. -/
def attrRound (cmd : ℕ) (s : Bytes × ℤ) : Except (Option (Bytes × ℤ)) (Bytes × ℤ) :=
  if s.2 < 4 then .error none
  else
    let nlaLen := value (s.1.take 2)
    if value ((s.1.drop 2).take 2) = cmd then .error (some (s.1.drop 4, nlaLen - 4))
    else if nlaAlign nlaLen = 0 then .error none
    else .ok (s.1.drop (nlaAlign nlaLen), s.2 - nlaAlign nlaLen)

/-- The loop over the attributes; `attrLoop_ends` says that the rounds are enough. -/
def attrLoop (cmd : ℕ) (attrs : Bytes) (len : ℤ) : Option (Bytes × ℤ) :=
  match run (attrRound cmd) (len.toNat / 4 + 1) (attrs, len) with
  | .error r => r
  | .ok _ => none

/-- `ipc_process_event`: `poll` and `ret` are what `lkl_sys_poll` and `nl_recv` return, and `buf` is
the memory from the buffer on. -/
def ipcProcessEvent (family : ℤ) (malloc : Bool) (poll ret : ℤ) (buf : Bytes) : ℤ × Option IpcMsg :=
  if poll ≤ 0 then (0, none)
  else if ret ≤ 0 then (ret, none)
  else if value ((buf.drop 4).take 2) = 2 ∨ value ((buf.drop 4).take 2) ≠ familyType family then
    (0, none)
  else if value ((buf.drop 17).take 1) ≠ cfg.version.toNat then (0, none)
  else
    let cmd := value ((buf.drop 16).take 1)
    match attrLoop cmd (buf.drop 20) (Int.bmod (value (buf.take 4) - 20) (2 ^ 32)) with
    | none => (0, none)
    | some (payload, payloadSz) =>
      if payloadSz ≤ 0 then (0, none)
      else if ipcMsgAlloc cfg malloc payloadSz.toNat then
        (0, some ⟨cmd, payload.take payloadSz.toNat⟩)
      else (-12, none)

/-- `ipc_process_event` when a frame comes in, with `rest` in memory behind what was received. -/
def ipcReceive (family : ℤ) (frame rest : Bytes) : ℤ × Option IpcMsg :=
  ipcProcessEvent cfg family true 1 (min frame.length cfg.bufSize) (frame.take cfg.bufSize ++ rest)

/-- A well-formed frame with an attribute of the command: the attributes before it are of other
types, and anything may follow. -/
structure NlFrame where
  info : Bytes
  cmd : UInt8
  reserved : Bytes
  before : List NlAttr
  payload : Bytes
  after : Bytes
  info_length : info.length = 10
  reserved_length : reserved.length = 2
  before_wf : ∀ a ∈ before, a.WellFormed ∧ a.nlaType ≠ cmd.toNat
  payload_lt : 4 + payload.length < 2 ^ 16
  length_lt : 20 + (before.flatMap bytes).length + (4 + payload.length) + after.length <
    2 ^ 31

namespace NlFrame

def len (f : NlFrame) : ℕ :=
  20 + (f.before.flatMap bytes).length + (4 + f.payload.length) + f.after.length

def upTo (f : NlFrame) (cfg : IpcConfig) (family : ℤ) : Bytes :=
  nlHeader f.len (familyType family) f.info f.cmd cfg.version f.reserved ++
    (f.before.flatMap bytes ++ head ⟨f.cmd.toNat, f.payload, []⟩)

def bytes (f : NlFrame) (cfg : IpcConfig) (family : ℤ) : Bytes := f.upTo cfg family ++ f.after

end NlFrame

/-! ### The loop over the attributes -/

theorem run_attrRound_ends (cmd : ℕ) {n : ℕ} {s : Bytes × ℤ} (h : s.2 < 4 * (n + 1)) :
    ∃ r, run (attrRound cmd) (n + 1) s = .error r := by
  induction n generalizing s with
  | zero => exact ⟨none, by rw [run, attrRound, if_pos (by simpa using h)]⟩
  | succ n ih =>
    cases hround : attrRound cmd s with
    | error r => exact ⟨r, run_succ_of_error hround _⟩
    | ok s' =>
      rw [run_succ_of_ok hround]
      refine ih ?_
      simp only [attrRound] at hround
      split_ifs at hround with _ _ hstep
      obtain rfl := Except.ok.inj hround
      have hfour : 4 ≤ nlaAlign (value (s.1.take 2)) := by
        rw [nlaAlign] at hstep ⊢
        omega
      dsimp only
      omega

theorem attrLoop_ends (cmd : ℕ) (attrs : Bytes) (len : ℤ) :
    run (attrRound cmd) (len.toNat / 4 + 1) (attrs, len) =
      .error (attrLoop cmd attrs len) := by
  obtain ⟨r, hr⟩ :=
    run_attrRound_ends cmd (n := len.toNat / 4) (s := (attrs, len)) (by dsimp only; omega)
  rw [attrLoop, hr]

theorem attrLoop_of_run {cmd n : ℕ} {attrs : Bytes} {len : ℤ} {r : Option (Bytes × ℤ)}
    (h : run (attrRound cmd) n (attrs, len) = .error r) : attrLoop cmd attrs len = r := by
  have hloop := run_error_mono (attrLoop_ends cmd attrs len) n
  rw [Nat.add_comm, run_error_mono h] at hloop
  exact (Except.error.inj hloop).symm

theorem value_take_encode {w n : ℕ} (h : n < 256 ^ w) (s : Bytes) :
    value ((encode w n ++ s).take w) = n := by
  rw [take_left' (length_encode w n), value_encode h]

theorem drop_encode (w n : ℕ) (s : Bytes) : (encode w n ++ s).drop w = s :=
  drop_left' (length_encode w n)

theorem NlAttr.head_fields {a : NlAttr} (htype : a.nlaType < 2 ^ 16)
    (hlen : 4 + a.payload.length < 2 ^ 16)
    (s : Bytes) : value ((a.head ++ s).take 2) = 4 + a.payload.length ∧
      value (((a.head ++ s).drop 2).take 2) = a.nlaType ∧
      (a.head ++ s).drop 4 = a.payload ++ s := by
  rw [head, append_assoc, append_assoc, drop_encode]
  refine ⟨value_take_encode hlen _, value_take_encode htype _, ?_⟩
  rw [← drop_drop (i := 2) (j := 2), drop_encode, drop_encode]

theorem NlAttr.length_head (a : NlAttr) : a.head.length = 4 + a.payload.length := by
  simp [head]
  omega

theorem NlAttr.WellFormed.length_bytes {a : NlAttr} (h : a.WellFormed) :
    a.bytes.length = nlaAlign (4 + a.payload.length) := by
  rw [bytes, length_append, a.length_head, h.pad]

theorem run_attrRound_before {cmd : ℕ} {before : List NlAttr} (rest : Bytes) (len : ℤ)
    (h : ∀ a ∈ before, a.WellFormed ∧ a.nlaType ≠ cmd)
    (hlen : (before.flatMap bytes).length ≤ len) :
    run (attrRound cmd) before.length (before.flatMap bytes ++ rest, len) =
      .ok (rest, len - (before.flatMap bytes).length) := by
  induction before generalizing len with
  | nil => simp [run]
  | cons a before ih =>
    obtain ⟨⟨ha, hne⟩, hbefore⟩ := forall_mem_cons.mp h
    rw [flatMap_cons, length_append] at hlen
    have hfour : 4 ≤ a.bytes.length := by
      rw [ha.length_bytes, nlaAlign]
      omega
    have hround : attrRound cmd (a.bytes ++ (before.flatMap bytes ++ rest), len) =
        .ok (before.flatMap bytes ++ rest, len - a.bytes.length) := by
      obtain ⟨hval, htype, -⟩ := head_fields ha.type_lt ha.length_lt
        (a.pad ++ (before.flatMap bytes ++ rest))
      rw [← append_assoc, ← bytes] at hval htype
      simp only [attrRound]
      rw [if_neg (by omega), hval, htype, if_neg hne, ← ha.length_bytes, if_neg (by omega),
        drop_left]
    rw [flatMap_cons, append_assoc, length_cons, run_succ_of_ok hround,
      ih _ hbefore (by omega), length_append]
    congr 2
    omega

theorem nlHeader_fields {len nlmsgType : ℕ} {info reserved : Bytes} (cmd version : UInt8)
    (s : Bytes) (hlen : len < 2 ^ 31) (htype : nlmsgType < 2 ^ 16) (hinfo : info.length = 10)
    (hreserved : reserved.length = 2) :
    let b := nlHeader len nlmsgType info cmd version reserved ++ s
    value (b.take 4) = len ∧ value ((b.drop 4).take 2) = nlmsgType ∧
      value ((b.drop 16).take 1) = cmd.toNat ∧ value ((b.drop 17).take 1) = version.toNat ∧
      b.drop 20 = s := by
  have hgenl : (nlHeader len nlmsgType info cmd version reserved ++ s).drop 16 =
      cmd :: version :: (reserved ++ s) := by
    rw [nlHeader, ← append_assoc, ← append_assoc, append_assoc]
    exact drop_left' (by simp [hinfo])
  refine ⟨?_, ?_, ?_, ?_, ?_⟩
  · rw [nlHeader, append_assoc]
    exact value_take_encode (by omega) _
  · rw [nlHeader, append_assoc, drop_encode, append_assoc]
    exact value_take_encode htype _
  · simp [hgenl, value]
  · rw [← drop_drop (i := 1) (j := 16), hgenl]
    simp [value]
  · rw [← drop_drop (i := 4) (j := 16), hgenl]
    exact drop_left' hreserved

namespace NlFrame

variable (f : NlFrame) {cfg : IpcConfig} {family : ℤ}

theorem length_upTo :
    (f.upTo cfg family).length =
      20 + (f.before.flatMap NlAttr.bytes).length + (4 + f.payload.length) := by
  simp only [upTo, nlHeader, length_append, length_cons, length_encode, length_head,
    f.info_length, f.reserved_length]
  omega

section Deliver

variable (hfamily : familyType family ≠ 2) (hpayload : f.payload ≠ [])
  (halloc : ipcMsgAlloc cfg true f.payload.length = true)

include hfamily hpayload halloc

theorem deliver_upTo {ret : ℤ} (hret : 0 < ret) (rest : Bytes) :
    ipcProcessEvent cfg family true 1 ret (f.upTo cfg family ++ rest) =
      (0, some ⟨f.cmd.toNat, f.payload⟩) := by
  have hcmd := f.cmd.toNat_lt
  have htype : familyType family < 2 ^ 16 := by
    rw [familyType]
    omega
  obtain ⟨hlen, hnl, hgenl, hversion, hattrs⟩ := nlHeader_fields f.cmd cfg.version
    (f.before.flatMap NlAttr.bytes ++ (NlAttr.head ⟨f.cmd.toNat, f.payload, []⟩ ++ rest))
    (show f.len < 2 ^ 31 from f.length_lt) htype f.info_length f.reserved_length
  have hattrsLen : Int.bmod (f.len - 20) (2 ^ 32) = f.len - 20 := by
    refine Int.bmod_eq_of_le ?_ ?_ <;> grind [len, f.length_lt]
  -- after the attributes of other types comes the one of the command
  obtain ⟨hval, hnla, hdrop⟩ := NlAttr.head_fields (a := ⟨f.cmd.toNat, f.payload, []⟩)
    (Nat.lt_of_lt_of_le hcmd (by decide)) f.payload_lt rest
  have hbefore :=
    run_attrRound_before (NlAttr.head ⟨f.cmd.toNat, f.payload, []⟩ ++ rest) (f.len - 20)
    f.before_wf (by grind [len])
  have hround : attrRound f.cmd.toNat (NlAttr.head ⟨f.cmd.toNat, f.payload, []⟩ ++ rest,
      f.len - 20 - (f.before.flatMap NlAttr.bytes).length) =
        .error (some (f.payload ++ rest, f.payload.length)) := by
    simp only [attrRound]
    rw [if_neg (by grind [len]), hnla, if_pos rfl, hdrop, hval]
    simp
  have hloop := (Rounds.run_add hbefore 1).trans (Rounds.run_succ_of_error hround 0)
  rw [ipcProcessEvent, if_neg (by decide), if_neg (by omega), upTo, append_assoc, append_assoc]
  rw [hnl, if_neg (by simp [hfamily]), hversion, if_neg (by simp), hlen, hgenl, hattrs]
  have hpos : 0 < f.payload.length := length_pos_iff.mpr hpayload
  dsimp only
  rw [hattrsLen, attrLoop_of_run hloop]
  dsimp only
  rw [if_neg (by omega), Int.toNat_natCast, if_pos halloc, take_left]

theorem receive_of_le (hle : (f.upTo cfg family).length ≤ cfg.bufSize) (rest : Bytes) :
    ipcReceive cfg family (f.bytes cfg family) rest = (0, some ⟨f.cmd.toNat, f.payload⟩) := by
  have hpos : 0 < (f.upTo cfg family).length := by
    rw [length_upTo]
    omega
  rw [ipcReceive, bytes, take_append, take_of_length_le hle, append_assoc]
  refine f.deliver_upTo hfamily hpayload halloc ?_ _
  rw [length_append]
  omega

/-- An attribute that does not end in the buffer is delivered with what is in memory behind it. -/
theorem not_receive_of_lt (hlt : cfg.bufSize < (f.upTo cfg family).length) :
    ∃ rest, ipcReceive cfg family (f.bytes cfg family) rest ≠
      (0, some ⟨f.cmd.toNat, f.payload⟩) := by
  obtain ⟨front, b, hfront⟩ := (eq_nil_or_concat' f.payload).resolve_left hpayload
  have hsize : (front ++ [b + 1]).length = f.payload.length := by simp [hfront]
  let f' : NlFrame := { f with
    payload := front ++ [b + 1]
    payload_lt := hsize ▸ f.payload_lt
    length_lt := hsize ▸ f.length_lt }
  obtain ⟨front', hup, hup'⟩ : ∃ front', f.upTo cfg family = front' ++ [b] ∧
      f'.upTo cfg family = front' ++ [b + 1] := by
    have hlen : f'.len = f.len := by rw [len, len, hsize]
    rw [upTo, upTo, hlen, NlAttr.head, NlAttr.head, hsize, hfront]
    exact ⟨_, by simp only [← append_assoc]; rfl, by simp only [f', ← append_assoc]⟩
  have hfit : cfg.bufSize ≤ front'.length := by
    rw [hup, length_append] at hlt
    exact Nat.le_of_lt_succ hlt
  have htake : (f.bytes cfg family).take cfg.bufSize = (f'.upTo cfg family).take cfg.bufSize := by
    rw [bytes, hup, hup', append_assoc, take_append_of_le_length hfit,
      take_append_of_le_length hfit]
  refine ⟨(f'.upTo cfg family).drop cfg.bufSize, ?_⟩
  have hret : (0 : ℤ) < min ((f.bytes cfg family).length : ℤ) cfg.bufSize := by
    rw [bytes, length_append, IpcConfig.bufSize] at *
    omega
  have hmsg := f'.deliver_upTo hfamily (by simp [f']) (hsize ▸ halloc) hret []
  rw [append_nil] at hmsg
  rw [ipcReceive, htake, take_append_drop, hmsg]
  simp [f', hfront]

end Deliver

end NlFrame

/-- A message is read back from its frame. A frame with an attribute of the command is delivered,
whatever is in memory behind what was received, exactly when that attribute ends in the receive
buffer. The loop over the attributes ends for every memory and length. -/
theorem ipc_roundTrip (cfg : IpcConfig) (family : ℤ) (hmax : cfg.maxMessageSize < 65532)
    (hfamily : familyType family ≠ 2) :
    (∀ (nlSeq flags : ℕ) (msg : IpcMsg) (rest : Bytes),
      ipcMsgAlloc cfg true msg.payload.length = true → msg.payload ≠ [] → msg.type < 256 →
      ipcReceive cfg family (ipcMsgSendInternal cfg family nlSeq flags msg) rest = (0, some msg)) ∧
    (∀ f : NlFrame, f.payload ≠ [] → ipcMsgAlloc cfg true f.payload.length = true →
      ((∀ rest, ipcReceive cfg family (f.bytes cfg family) rest =
        (0, some ⟨f.cmd.toNat, f.payload⟩)) ↔
        20 + (f.before.flatMap bytes).length + (4 + f.payload.length) ≤ cfg.bufSize)) ∧
    ∀ (cmd : ℕ) (attrs : Bytes) (len : ℤ), Ends (attrRound cmd) (attrs, len) := by
  refine ⟨fun nlSeq flags msg rest halloc hne htype => ?_, fun f hne halloc => ?_,
    fun cmd attrs len =>
    ⟨_, _, attrLoop_ends cmd attrs len⟩⟩
  · have hcmd : (UInt8.ofNat msg.type).toNat = msg.type := by
      rw [UInt8.toNat_ofNat', Nat.mod_eq_of_lt htype]
    have hsize : msg.payload.length + cfg.msgSize + 1 ≤ cfg.maxMessageSize := by
      simpa [ipcMsgAlloc] using halloc
    have halign : 4 + msg.payload.length ≤ nlaAlign (4 + msg.payload.length) ∧
        nlaAlign (4 + msg.payload.length) < 8 + msg.payload.length := by
      rw [nlaAlign]
      omega
    let f : NlFrame :=
      ⟨encode 2 flags ++ encode 4 nlSeq ++ encode 4 0, UInt8.ofNat msg.type, [0, 0], [],
      msg.payload, replicate (nlaAlign (4 + msg.payload.length) - (4 + msg.payload.length)) 0,
      by simp, rfl, forall_mem_nil _, by omega, by simp; omega⟩
    have hframe : f.bytes cfg family = ipcMsgSendInternal cfg family nlSeq flags msg := by
      have hlen : f.len = 20 + nlaAlign (4 + msg.payload.length) := by
        simp [NlFrame.len, f]
        omega
      rw [NlFrame.bytes, NlFrame.upTo, hlen]
      simp [ipcMsgSendInternal, f, hcmd]
    have hmsg := f.receive_of_le hfamily hne halloc
      (by rw [NlFrame.length_upTo, IpcConfig.bufSize]; simp [f]; omega) rest
    rwa [hframe, hcmd] at hmsg
  · rw [← f.length_upTo]
    refine ⟨fun h => ?_, f.receive_of_le hfamily hne halloc⟩
    by_contra hlt
    obtain ⟨rest, hrest⟩ := f.not_receive_of_lt hfamily hne halloc (Nat.lt_of_not_le hlt)
    exact hrest (h rest)

theorem ipc_roundTrip_ksmbd :
    ipcReceive ⟨4096, 8, 1⟩ 26 (ipcMsgSendInternal ⟨4096, 8, 1⟩ 26 1 1 ⟨5, [42]⟩) [] =
    (0, some ⟨5, [42]⟩) :=
  (ipc_roundTrip ⟨4096, 8, 1⟩ 26 (by decide) (by decide)).1 1 1 ⟨5, [42]⟩ [] (by decide) (by decide)
    (by decide)

def longFrame : NlFrame where
  info := replicate 10 0
  cmd := 5
  reserved := [0, 0]
  before := [⟨7, replicate 4396 0, []⟩]
  payload := [42]
  after := [0, 0, 0]
  info_length := rfl
  reserved_length := rfl
  before_wf := forall_mem_singleton.mpr
    ⟨⟨by decide, by rw [length_replicate]; decide, by rw [length_replicate]; rfl⟩, by decide⟩
  payload_lt := by decide
  length_lt := by
    rw [flatMap_singleton, bytes, append_nil, length_head, length_replicate]
    decide

/-- What is delivered depends on what is in memory behind a buffer for messages of 4096 bytes. -/
theorem ipcReceive_longFrame :
    ¬ ∀ rest, ipcReceive ⟨4096, 8, 1⟩ 26 (longFrame.bytes ⟨4096, 8, 1⟩ 26) rest =
    (0, some ⟨5, [42]⟩) := by
  intro h
  have hlt : IpcConfig.bufSize ⟨4096, 8, 1⟩ < (longFrame.upTo ⟨4096, 8, 1⟩ 26).length := by
    rw [NlFrame.length_upTo, longFrame, flatMap_singleton, NlAttr.bytes, append_nil,
      length_head, length_replicate]
    decide
  obtain ⟨rest, hrest⟩ := longFrame.not_receive_of_lt (by decide) (by decide) (by decide) hlt
  exact hrest (h rest)

end Anyfs
