import Anyfs.Core.UrlFs
import Anyfs.Lib.Pieces
import Anyfs.Nbd.Books

/-!
# The sources of the NBD server

The server relies on its source: what it gets for a READ, if it has the right length, are the bytes
of the export. A file and a block device are read in a loop, and a URL by a request for the range.
-/

namespace Anyfs

open List

/-- `FileSource.read` and `BlockDeviceSource.read`. The counts say what each read of the handle
gives; `none` stands for a rejection. -/
def fileSourceRead (file : Bytes) (counts : ℕ → Except Unit ℕ) (offset length : ℕ) : Option Bytes :=
  if 0 < length then
    let r := Pieces.loop (Pieces.reader (file.drop offset) counts) () length []
    if r.error.isSome then none else some r.moved
  else some []

/-- `HttpSource.read` of a file of `bytes` bytes, after `sent` requests. -/
def httpSourceRead (server : Server) (sent bytes offset length : ℕ) : Option Bytes :=
  let last : ℤ := min (offset + length) bytes - 1
  let res := server sent offset last.toNat
  if res.status ≠ 206 ∧ res.status ≠ 200 then none
  else if res.status = 200 ∧ last - offset + 1 < res.body.length then
    some ((res.body.take (last + 1).toNat).drop offset)
  else some res.body

/-- The export of a source; its size is the length of what is behind it. -/
def NbdExport.ofContent (content : Bytes) (h : content.length ≤ 2 ^ 53) : NbdExport :=
  ⟨content.length, fun a => content.getD a 0, h.trans_lt (by decide)⟩

/-- A source: what its `read` may return for an offset and a length. -/
abbrev DataSource := (offset length : ℕ) → Option Bytes → Prop

/-- The handle reads without errors, as many bytes at a time as it likes. -/
def fileSource (content : Bytes) : DataSource := fun offset length r =>
  ∃ counts : ℕ → ℕ, r = fileSourceRead content (fun done => .ok (counts done)) offset length

/-- A source over a server of the file. -/
def httpSource (content : Bytes) : DataSource := fun offset length r =>
  ∃ server sent, Server.Serves server content ∧
    r = httpSourceRead server sent content.length offset length

/-- The source gives the bytes of the file. -/
def DataSource.Reads (src : DataSource) (content : Bytes) : Prop :=
  ∀ offset length r, 0 < length → offset + length ≤ content.length → src offset length r →
    r = some ((content.drop offset).take length)

theorem fileSource_reads (content : Bytes) : (fileSource content).Reads content := by
  rintro offset length r hpos - ⟨counts, rfl⟩
  rw [fileSourceRead, if_pos hpos]
  have hcall := Pieces.fst_reader (content.drop offset) fun done =>
    Except.ok (ε := Unit) (counts done)
  obtain ⟨n, hmoved, ⟨herror, rfl⟩ | ⟨-, -, hstop⟩⟩ := Pieces.loop_spec hcall () length
  · dsimp only
    rw [herror, hmoved]
    rfl
  · generalize Pieces.Outcome.error _ = error at hstop
    cases hstop with
    | stalled hzero => exact absurd hzero (Pieces.onward_ne_zero _ _)
    | failed herror => cases Pieces.onward_eq_error herror

theorem httpSource_reads (content : Bytes) : (httpSource content).Reads content := by
  rintro offset length r hpos hle ⟨server, sent, hserver, rfl⟩
  have hlast : ((min (offset + length) content.length : ℕ) : ℤ) - 1 =
      (offset + length - 1 : ℕ) := by
    omega
  have hbytes : (content.take (offset + length - 1 + 1)).drop offset =
      (content.drop offset).take length := by
    rw [Nat.sub_add_cancel (by omega), drop_take, Nat.add_sub_cancel_left]
  rw [httpSourceRead, hlast, Int.toNat_natCast]
  rcases hserver sent offset (offset + length - 1) (by omega) (by omega) with h | h
  · rw [h, if_neg (by simp), if_neg (by simp), hbytes]
  · rw [h, if_neg (by simp)]
    split_ifs with hlong
    · rw [show (((offset + length - 1 : ℕ) : ℤ) + 1).toNat = offset + length - 1 + 1 by omega,
        hbytes]
    · -- the whole file was asked for
      have hfile : offset = 0 ∧ content.length ≤ length := by
        simp only [true_and] at hlong
        omega
      rw [hfile.1, drop_zero, take_of_length_le hfile.2]

theorem toNumber_eq {n : ℕ} (h : n ≤ 2 ^ 53) : toNumber n = n := by
  rcases Nat.eq_or_lt_of_le h with rfl | hlt
  · decide +kernel
  · have hlog : n.log2 - 52 = 0 := by
      rcases eq_or_ne n 0 with rfl | hne
      · rfl
      · have := (Nat.log2_lt hne).mpr hlt
        omega
    simp [toNumber, hlog, Nat.mod_one]

/-- **A READ gets its bytes.** What a file, a block device or a URL answers to a READ inside the
export is what the server relies on, and the reply is a success with the bytes that were asked
for. -/
theorem sources_answer_reads (content : Bytes) (hsize : content.length ≤ 2 ^ 53) (q : NbdRequest)
    (hread : q.type = nbdCmdRead) (hpos : 0 < q.length)
    (hle : q.offset + q.length ≤ content.length) (r : Option Bytes)
    (hr : fileSource content (toNumber q.offset) q.length r ∨
      httpSource content (toNumber q.offset) q.length r) :
    NbdServer.MayAnswer (.ofContent content hsize) (parseHeader q.header) r ∧
      (parseHeader q.header).reply (.ofContent content hsize) r =
        simpleReply 0 q.handle (some ((content.drop q.offset).take q.length)) := by
  rw [toNumber_eq (by omega)] at hr
  obtain rfl : r = some ((content.drop q.offset).take q.length) :=
    hr.elim (fileSource_reads content _ _ _ hpos hle) (httpSource_reads content _ _ _ hpos hle)
  have hlen : ((content.drop q.offset).take q.length).length = q.length := by
    rw [length_take, length_drop]
    omega
  rw [q.parseHeader_header]
  constructor
  · rintro data ⟨⟩ -
    dsimp only
    rw [toNumber_eq (by omega)]
    refine ext_getElem? fun i => ?_
    rcases Nat.lt_or_ge i q.length with hi | hi
    · rw [ByteStore.getElem?_slice _ _ hi, getElem?_take_of_lt hi, getElem?_drop]
      exact getElem?_eq_getElem (by omega) |>.trans
        (congrArg some (getD_eq_getElem _ _ (by omega)).symm)
    · rw [getElem?_eq_none (by omega), getElem?_eq_none (by simpa using hi)]
  · rw [NbdBooks.reply_of_inside hread (decide_eq_false (Nat.not_lt.mpr hle)), readReply,
      if_pos hlen]

/-- Two bytes of a URL. -/
theorem sources_answer_reads_two :
    (parseHeader (encodeHeader 0 nbdCmdRead (replicate 8 7) 1 2)).reply
        (.ofContent [7, 8, 9] (by decide)) (some [8, 9]) = simpleReply 0 (replicate 8 7)
        (some [8, 9]) :=
  (sources_answer_reads [7, 8, 9] (by decide)
    ⟨0, nbdCmdRead, replicate 8 7, 1, 2, [], by decide, by decide, rfl, by decide, by decide, rfl⟩
    rfl (by decide) (by decide) _
      (.inr ⟨fun _ start last => ⟨206, ([7, 8, 9].take (last + 1)).drop start⟩, 0,
      fun _ _ _ _ _ => .inl rfl, by decide +kernel⟩)).2

end Anyfs
