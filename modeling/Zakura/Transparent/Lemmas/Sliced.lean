import Zakura.Transparent.Sliced
import Zakura.Transparent.Lemmas.RowsCanonical

/-! # The decoders never panic

Each decoder that indexes its input is the reader it refines: it returns or fails as the reader does, whatever
the input, and no index, slice, array or sum of it is out of range. -/

namespace Zakura.Transparent.Sliced

open List Checked Zakura.Except Reader

/-! ## Events -/

theorem shiftLeft_group {byte i : Nat} (hi : i ≤ 9) (hbyte : i = 9 → byte ≤ 1) :
    (shiftLeft (byte % 128) (7 * i) : Checked EventError Nat) = pure ((byte % 128) <<< (7 * i)) := by
  have hlt : byte % 128 * 2 ^ (7 * i) < 2 ^ 64 := by
    rcases Nat.lt_or_eq_of_le hi with hlt | rfl
    · have hpow : 2 ^ (7 * i) ≤ 2 ^ 56 := Nat.pow_le_pow_right (by decide) (by omega)
      have hmod : byte % 128 ≤ 127 := by omega
      calc byte % 128 * 2 ^ (7 * i) ≤ 127 * 2 ^ 56 := Nat.mul_le_mul hmod hpow
        _ < 2 ^ 64 := by decide
    · have := hbyte rfl
      omega
  rw [shiftLeft, if_pos (by omega), Nat.shiftLeft_eq, Nat.mod_eq_of_lt hlt]

variable {bytes : Bytes}

/-- By induction on the rounds left: the loop at byte `i` reads what is dropped up to it. -/
theorem decodeVarintLoop_eq {maximum left i value : Nat} (hleft : left + i = 10) (hi : i ≤ bytes.length) :
    decodeVarintLoop bytes maximum left i value =
      done ((Transparent.decodeVarintLoop maximum left i value).runAt bytes i) := by
  induction left generalizing i value with
  | zero => rfl
  | succ left ih =>
    rw [decodeVarintLoop]
    cases hget : bytes[i]? with
    | none =>
      have hdrop : bytes.drop i = [] := drop_eq_nil_of_le (List.getElem?_eq_none_iff.mp hget)
      rw [getByte_of_none hget, runAt_error (e := .metadata "truncated varint") (by rw [hdrop]; rfl)]
      rfl
    | some byte =>
      obtain ⟨hlt, rfl⟩ := List.getElem?_eq_some_iff.mp hget
      have hdrop : bytes.drop i = bytes[i] :: bytes.drop (i + 1) := drop_eq_getElem_cons hlt
      have hread : (Transparent.decodeVarintLoop maximum (left + 1) i value).runAt bytes i =
          (if i = 9 ∧ 1 < bytes[i].toNat then Reader.fail (.metadata "overflowing varint")
            else if bytes[i].toNat < 128 then
              if i ≠ 0 ∧ bytes[i] = 0 then Reader.fail (.metadata "noncanonical varint")
              else if maximum < value ||| (bytes[i].toNat % 128) <<< (7 * i) then
                Reader.fail (.metadata "varint exceeds bound")
              else pure (value ||| (bytes[i].toNat % 128) <<< (7 * i))
            else Transparent.decodeVarintLoop maximum left (i + 1)
              (value ||| (bytes[i].toNat % 128) <<< (7 * i))).runAt bytes (i + 1) := by
        rw [Reader.runAt, Transparent.decodeVarintLoop, run_bind, hdrop, run_byte_ok.mpr rfl]
        rfl
      rw [hread, getByte_of_getElem? hget, pure_bind]
      split_ifs with hover hlast hzero hmax
      · rfl
      · rw [shiftLeft_group (by omega) (by omega), pure_bind]
        rfl
      · rw [shiftLeft_group (by omega) (by omega), pure_bind, if_pos hmax]
        rfl
      · rw [shiftLeft_group (by omega) (by omega), pure_bind, if_neg hmax, runAt_pure _ (by omega)]
        rfl
      · rw [shiftLeft_group (by omega) (by omega), pure_bind]
        exact ih (by omega) hlt

theorem decodeVarint_eq (bytes : Bytes) (maximum : Nat) :
    decodeVarint bytes maximum = done ((Transparent.decodeVarint maximum).runAt bytes 0) :=
  decodeVarintLoop_eq rfl (Nat.zero_le _)

theorem decodeVarint_leavesSuffix {maximum : Nat} (hmax : maximum < 2 ^ 64) :
    (Transparent.decodeVarint maximum).LeavesSuffix := by
  intro input v rest h
  obtain ⟨-, rfl⟩ := (run_decodeVarint_ok hmax).mp h
  exact suffix_append ..

theorem decodeFee_leavesSuffix (flags : UInt8) (coinbase : Bool) :
    (TransactionMetadata.decodeFee flags coinbase).LeavesSuffix := by
  intro input fee rest h
  obtain ⟨-, rfl⟩ := TransactionMetadata.decodeFee_canonical h
  exact suffix_append ..

theorem decodeMetadata_leavesSuffix (flags : UInt8) (coinbase : Bool) :
    (TransactionMetadata.decode flags coinbase).LeavesSuffix := by
  intro input metadata rest h
  obtain ⟨-, rfl⟩ := TransactionMetadata.decode_canonical h
  exact suffix_append ..

variable {ε : Type}

theorem add_of_le {a b : Nat} (h : a + b ≤ 2 * pageRowBytes) : (add a b : Checked ε Nat) = pure (a + b) :=
  add_of_lt (h.trans_lt (by decide))

theorem decodeFee_eq {used : Nat} (flags : UInt8) (coinbase : Bool) (hbytes : bytes.length ≤ pageRowBytes)
    (hused : used ≤ bytes.length) :
    decodeFee bytes flags coinbase used = done ((TransactionMetadata.decodeFee flags coinbase).runAt bytes used) := by
  unfold decodeFee TransactionMetadata.decodeFee
  split_ifs with hexact hcoinbase
  · have hsuffix := decodeVarint_leavesSuffix (by decide : maxMoney < 2 ^ 64)
    rw [sliceFrom_of_le hused, pure_bind, decodeVarint_eq, runAt_bind hsuffix _ hused,
      runAt_drop hsuffix hused]
    cases hrun : (Transparent.decodeVarint maxMoney).runAt (bytes.drop used) 0 with
    | error e => rfl
    | ok r =>
      obtain ⟨fee, n⟩ := r
      obtain ⟨-, -, hn⟩ := runAt_ok hsuffix (Nat.zero_le _) hrun
      rw [length_drop] at hn
      change (add used n >>= _) = done (Reader.runAt (pure _) bytes (used + n))
      rw [add_of_le (by omega), pure_bind, runAt_pure _ (by omega)]
      rfl
  · rw [runAt_pure _ hused]
    rfl
  · rw [runAt_pure _ hused]
    rfl

theorem decodeMetadata_eq (flags : UInt8) (coinbase : Bool) (hbytes : bytes.length ≤ pageRowBytes) :
    decodeMetadata bytes flags coinbase = done ((TransactionMetadata.decode flags coinbase).runAt bytes 0) := by
  unfold decodeMetadata TransactionMetadata.decode
  split_ifs with hunknown hzero
  · rfl
  · rw [runAt_pure _ (Nat.zero_le _)]
    rfl
  · have hcount := decodeVarint_leavesSuffix (by decide : 0xFFFFFFFF < 2 ^ 64)
    rw [decodeVarint_eq, runAt_bind hcount _ (Nat.zero_le _)]
    refine done_bind fun ⟨count, used⟩ hrun => ?_
    obtain ⟨-, -, hused⟩ := runAt_ok hcount (Nat.zero_le _) hrun
    dsimp only
    rw [decodeFee_eq flags coinbase hbytes hused, runAt_bind (decodeFee_leavesSuffix flags coinbase) _ hused]
    refine done_bind fun ⟨fee, stop⟩ hfee => ?_
    obtain ⟨-, -, hstop⟩ := runAt_ok (decodeFee_leavesSuffix flags coinbase) hused hfee
    dsimp only
    rw [runAt_ofExcept_bind]
    refine done_bind fun _ _ => ?_
    rw [runAt_pure _ hstop]
    rfl

/-! ## Records -/

theorem field_eq {start stop : Nat} (h : start ≤ stop) (hstop : stop ≤ bytes.length) :
    field bytes start stop = pure ⟨bytesAt bytes start (stop - start), length_bytesAt (by omega)⟩ := by
  rw [field, slice_of_le h hstop, pure_bind, array_of_length]

theorem fromLegacyBytes_eq (bytes : Bytes) :
    fromLegacyBytes bytes = done (TransparentEvent.fromLegacyBytes bytes) := by
  unfold fromLegacyBytes TransparentEvent.fromLegacyBytes
  by_cases hlength : bytes.length ≠ eventBytes
  · rw [if_pos hlength, if_pos hlength]
    rfl
  rw [if_neg hlength, if_neg hlength]
  rw [not_not] at hlength
  have hlen : bytes.length = 87 := hlength
  split_ifs with hzero
  · rfl
  have hhead : bytes[0]? = some (bytes.headD 0) := by
    cases bytes with
    | nil => cases hlen
    | cons b bytes => rfl
  have htxid : txidAt bytes 15 = ⟨⟨bytesAt bytes 15 32, length_bytesAt (by omega)⟩⟩ := dif_pos _
  have hspent : txidAt bytes 51 = ⟨⟨bytesAt bytes 51 32, length_bytesAt (by omega)⟩⟩ := dif_pos _
  rw [index_of_getElem? hhead, pure_bind, field_eq (by decide) (by omega), field_eq (by decide) (by omega),
    field_eq (by decide) (by omega), field_eq (by decide) (by omega), field_eq (by decide) (by omega),
    field_eq (by decide) (by omega), field_eq (by decide) (by omega)]
  simp only [pure_bind, htxid, hspent]
  split_ifs <;> rfl

theorem readMetadata_eq {event : TransparentEvent} (hlow : eventBytes ≤ bytes.length) (hhigh : bytes.length ≤ maxEventBytes)
    :
    readMetadata bytes event = done (event.readMetadata (bytes.drop eventBytes)) := by
  have hmax : maxEventBytes ≤ pageRowBytes := by decide
  unfold readMetadata
  split_ifs with hmore
  · have hflags : bytes[eventBytes]? = some bytes[eventBytes] := getElem?_eq_getElem hmore
    have hdrop : bytes.drop eventBytes = bytes[eventBytes] :: bytes.drop (eventBytes + 1) :=
      drop_eq_getElem_cons hmore
    rw [sliceFrom_of_le hmore, pure_bind, index_of_getElem? hflags, pure_bind,
      decodeMetadata_eq _ _ (by rw [length_drop]; omega), hdrop, TransparentEvent.readMetadata]
    rw [Reader.runAt, drop_zero]
    cases hrun : (TransactionMetadata.decode bytes[eventBytes] event.coinbase).run (bytes.drop (eventBytes + 1)) with
    | error e => rfl
    | ok r =>
      obtain ⟨metadata, rest⟩ := r
      have hle := (decodeMetadata_leavesSuffix _ _ _ _ _ hrun).length_le
      rw [length_drop] at hle
      have hframed : eventBytes + 1 + ((bytes.drop (eventBytes + 1)).length - rest.length) ≠ bytes.length ↔ rest ≠ [] := by
        rw [length_drop, ne_eq, ne_eq, not_iff_not, ← length_eq_zero_iff]
        omega
      change (add (eventBytes + 1) ((bytes.drop (eventBytes + 1)).length - rest.length) >>= _) = _
      rw [add_of_le (by rw [length_drop]; omega), pure_bind]
      simp only [hframed]
      change _ = done (if metadata = none ∨ rest ≠ [] then .error (EventError.metadata "invalid metadata framing")
        else pure (event.withMetadata metadata))
      split_ifs <;> rfl
  · have hdrop : bytes.drop eventBytes = [] := drop_eq_nil_of_le (by omega)
    rw [hdrop]
    rfl

/-- Decoding an event never panics. -/
theorem fromBytes_eq (bytes : Bytes) : fromBytes bytes = done (TransparentEvent.fromBytes bytes) := by
  unfold fromBytes TransparentEvent.fromBytes
  split_ifs with hlength
  · rfl
  · simp only [not_or, not_lt] at hlength
    rw [slice_of_le (Nat.zero_le _) hlength.1, pure_bind, fromLegacyBytes_eq]
    refine done_bind fun record _ => ?_
    rw [readMetadata_eq hlength.1 hlength.2]
    refine done_bind fun event _ => ?_
    exact done_bind fun _ _ => rfl

/-! ## Compact events -/

theorem rawRecord_eq {flags : UInt8} {body : Bytes} (previous : Option TransparentEvent)
    (hbody : body.length = Compact.bodyLen flags) :
    rawRecord flags body previous = done (Compact.rawRecord flags body previous) := by
  unfold rawRecord Compact.rawRecord
  dsimp only
  by_cases hreceive : flags &&& 1 = 0
  · rw [if_pos hreceive, if_pos hreceive]
    rw [Compact.bodyLen, if_pos hreceive] at hbody
    cases body with
    | nil => cases hbody
    | cons b fields =>
      have hzeros : List.replicate eventBytes 0 = [] ++ (List.replicate 51 (0 : UInt8) ++ List.replicate 36 0) := rfl
      rw [hzeros, copy_append (by rfl) (by rfl) (by rw [hbody]; rfl), pure_bind, index_of_getElem? rfl, pure_bind]
      change copy ([] ++ ([b] ++ (fields ++ List.replicate 36 0))) 0 1 [b &&& 3] = _
      rw [copy_append (by rfl) (by rfl) (by rfl)]
      rfl
  · rw [if_neg hreceive, if_neg hreceive]
    have hlen : 43 ≤ body.length := by
      rw [hbody, Compact.bodyLen, if_neg hreceive]
      split_ifs <;> decide
    have hzeros : List.replicate eventBytes 0 = [] ++ ([(0 : UInt8)] ++ List.replicate 86 0) := rfl
    have hposition : (bytesAt body 1 (7 - 1)).length = 6 := length_bytesAt (by omega)
    have hinput : (bytesAt body 7 (43 - 7)).length = 36 := length_bytesAt (by omega)
    rw [hzeros, copy_append (by rfl) (by rfl) (by rfl), pure_bind, slice_of_le (by decide) (by omega), pure_bind]
    change (copy ([1] ++ (List.replicate 6 0 ++ List.replicate 80 0)) 1 7 _ >>= _) = _
    rw [copy_append (by rfl) (by rfl) hposition, pure_bind, slice_of_le (by decide) hlen, pure_bind]
    have hsplit : [1] ++ (bytesAt body 1 (7 - 1) ++ List.replicate 80 0) =
        ([1] ++ bytesAt body 1 6 ++ List.replicate 8 0) ++ (List.replicate 36 0 ++ List.replicate 36 0) := by
      rw [append_assoc, append_assoc]
      rfl
    rw [hsplit, copy_append (by simp [hposition]) (by rfl) hinput, pure_bind, ← append_assoc]
    obtain ⟨front, hfront⟩ : ∃ front, front =
      [1] ++ bytesAt body 1 6 ++ List.replicate 8 0 ++ bytesAt body 7 (43 - 7) := ⟨_, rfl⟩
    have hfront' : front.length = 51 := by simp [hfront, hposition, hinput]
    rw [← hfront]
    by_cases hlocal : flags &&& Compact.localOutpoint ≠ 0
    · rw [if_pos hlocal, if_pos hlocal]
      cases previous with
      | none => rfl
      | some event =>
        cases event with
        | spend e => rfl
        | receive r =>
          change (copy (front ++ (List.replicate 32 0 ++ List.replicate 4 0)) 51 83 r.txid.bytes.val >>= _) = _
          rw [copy_append hfront' (by rfl) r.txid.bytes.length_val, pure_bind, ← append_assoc,
            ← append_nil (List.replicate 4 0), copy_append (by simp [hfront']) (by rfl) (length_leBytes 4 _)]
          rw [append_nil, append_assoc, hfront]
          rfl
    · rw [if_neg hlocal, if_neg hlocal, sliceFrom_of_le hlen, pure_bind]
      rw [Compact.bodyLen, if_neg hreceive, if_neg hlocal] at hbody
      change copy (front ++ (List.replicate 36 0 ++ [])) 51 eventBytes (body.drop 43) = _
      rw [copy_append hfront' (by rfl) (by rw [length_drop, hbody]; rfl), append_nil, hfront]
      rfl

theorem decodeEvent_leavesSuffix (previous : Option TransparentEvent) : (Compact.decodeEvent previous).LeavesSuffix := by
  intro input event rest h
  obtain ⟨-, rfl⟩ := Compact.decodeEvent_canonical h
  exact suffix_append ..

theorem decodeCompact_leavesSuffix (count : Nat) : (Compact.decode count).LeavesSuffix := by
  intro input events rest h
  obtain ⟨-, -, -, rfl⟩ := Compact.run_decode_ok.mp h
  exact suffix_append ..

theorem bodyLen_le (flags : UInt8) : Compact.bodyLen flags ≤ 79 := by
  unfold Compact.bodyLen
  split_ifs <;> decide

variable {position : Nat}

theorem decodeEvent_eq (previous : Option TransparentEvent) (hbytes : bytes.length ≤ pageRowBytes)
    (hposition : position ≤ bytes.length) :
    decodeEvent bytes position previous = done ((Compact.decodeEvent previous).runAt bytes position) := by
  unfold decodeEvent Compact.decodeEvent
  cases hget : bytes[position]? with
  | none =>
    have hdrop : bytes.drop position = [] := drop_eq_nil_of_le (List.getElem?_eq_none_iff.mp hget)
    rw [getByte_of_none hget, runAt_error (e := .malformed "truncated compact event") (by rw [hdrop]; rfl)]
    rfl
  | some flags =>
    rw [getByte_of_getElem? hget, pure_bind, runAt_bind (peek_leavesSuffix _) _ hposition,
      runAt_peek _ hget, ok_bind]
    by_cases hflags : flags &&& ~~~63 ≠ 0 ∨ (flags &&& 1 = 0 ∧ flags &&& Compact.localOutpoint ≠ 0) ∨ flags &&& 3 = 3
    · rw [if_pos hflags, if_pos hflags]
      rfl
    rw [if_neg hflags, if_neg hflags]
    dsimp only
    generalize hl : (if flags &&& 1 = 0 then Compact.receiveBytes else if flags &&& Compact.localOutpoint ≠ 0 then
      Compact.localSpendBytes else Compact.spendBytes) = len
    change Compact.bodyLen flags = len at hl
    have hlen : len ≤ 79 := hl ▸ bodyLen_le flags
    have hpage : pageRowBytes = 4096 := rfl
    rw [add_of_le (by omega), pure_bind, runAt_bind (takeBytes_leavesSuffix _ _) _ hposition]
    by_cases hfits : position + len ≤ bytes.length
    · rw [getSlice, if_pos ⟨Nat.le_add_right .., hfits⟩, pure_bind, runAt_takeBytes hfits, ok_bind,
        Nat.add_sub_cancel_left, rawRecord_eq previous ((length_bytesAt hfits).trans hl.symm),
        runAt_ofExcept_bind]
      refine done_bind fun raw _ => ?_
      rw [sliceFrom_of_le hfits, pure_bind, runAt_remaining_bind]
      have hsuffix := decodeMetadata_leavesSuffix (flags &&& 56) (decide (flags &&& 2 ≠ 0))
      rw [runAt_bind hsuffix.mapError _ hfits, runAt_mapError, runAt_drop hsuffix hfits,
        decodeMetadata_eq _ _ (by rw [length_drop]; omega), mapError_done]
      cases hmetadata : (TransactionMetadata.decode (flags &&& 56) (decide (flags &&& 2 ≠ 0))).runAt
          (bytes.drop (position + len)) 0 with
      | error e => rfl
      | ok r =>
        obtain ⟨metadata, used⟩ := r
        obtain ⟨-, -, hused⟩ := runAt_ok hsuffix (Nat.zero_le _) hmetadata
        rw [length_drop] at hused
        change (mapError RecordError.event (fromLegacyBytes raw) >>= _) =
          done (Reader.runAt (_ >>= _) bytes (position + len + used))
        rw [fromLegacyBytes_eq, mapError_done, runAt_remaining_bind, runAt_ofExcept_bind]
        refine done_bind fun event _ => ?_
        rw [runAt_ofExcept_bind]
        refine done_bind fun _ _ => ?_
        have htotal : len + (bytes.length - (position + len) - (bytes.length - (position + len + used))) = len + used := by
          omega
        rw [add_of_le (by omega), pure_bind, runAt_ite_fail, htotal]
        split_ifs with hcanonical
        · rfl
        · rw [add_of_le (by omega), pure_bind, runAt_pure _ (by omega), Nat.add_assoc]
          rfl
    · rw [getSlice, if_neg (fun h => hfits h.2), runAt_takeBytes_short (by omega) hposition]
      rfl

theorem decodeEvents_eq (count : Nat) (previous : Option TransparentEvent) (hbytes : bytes.length ≤ pageRowBytes)
    (hposition : position ≤ bytes.length) :
    decodeEvents bytes count position previous = done ((Compact.decodeFrom count previous).runAt bytes position) := by
  induction count generalizing position previous with
  | zero =>
    rw [Compact.decodeFrom, runAt_pure _ hposition]
    rfl
  | succ count ih =>
    have hsuffix := decodeEvent_leavesSuffix previous
    rw [decodeEvents, Compact.decodeFrom, decodeEvent_eq previous hbytes hposition,
      runAt_bind hsuffix _ hposition]
    refine done_bind fun read hevent => ?_
    obtain ⟨event, stop⟩ := read
    obtain ⟨-, -, hstop⟩ := runAt_ok hsuffix hposition hevent
    have hrest : (Compact.decodeFrom count (some event)).LeavesSuffix := by
      intro input events rest h
      obtain ⟨-, -, rfl⟩ := Compact.run_decodeFrom_ok.mp h
      exact suffix_append ..
    dsimp only
    rw [ih (some event) hstop, runAt_bind hrest _ hstop]
    refine done_bind fun read hevents => ?_
    obtain ⟨events, last⟩ := read
    rw [runAt_pure _ (runAt_ok hrest hstop hevents).2.2]
    rfl

theorem decodeCompact_eq (count : Nat) (hbytes : bytes.length ≤ pageRowBytes) :
    decodeCompact bytes count = done ((Compact.decode count).runAt bytes 0) := by
  unfold decodeCompact Compact.decode
  rw [runAt_ite_fail]
  split_ifs with hcount
  · rfl
  · exact decodeEvents_eq count none hbytes (Nat.zero_le _)

/-! ## Page rows -/

def pastRow : Nat → RecordError := fun _ => .malformed "entry runs past the row"

variable {row : Bytes}

theorem runAt_pastRow {len : Nat} (h : row.length < position + len) (hposition : position ≤ row.length) :
    (Reader.takeBytes len pastRow).runAt row position = .error (.malformed "entry runs past the row") :=
  runAt_takeBytes_short h hposition

section Fields

variable {offset next : Nat} {α : Type} (hrow : row.length ≤ pageRowBytes) (hposition : position + offset ≤ row.length)

include hrow hposition

/-- A field that the code takes at an offset refines the reader that takes it there. -/
theorem entryField_eq (len : Nat) (hlen : len ≤ 14) :
    entryField row position offset len =
      done (((Reader.takeBytes len pastRow).runAt row (position + offset)).map Prod.fst) := by
  have hpage : pageRowBytes = 4096 := rfl
  have hbound : position + offset + len < usizeBound := by
    have husize : usizeBound = 2 ^ 32 := rfl
    omega
  rw [entryField, add_of_le (by omega), pure_bind, take, if_pos hbound, getSlice]
  by_cases hfits : position + offset + len ≤ row.length
  · rw [if_pos ⟨Nat.le_add_right .., hfits⟩, pure_bind, runAt_takeBytes hfits,
      array_of_length (by rw [length_bytesAt (by omega)]; omega)]
    refine congrArg (fun bytes => done (.ok bytes)) (Subtype.ext ?_)
    change bytesAt row (position + offset) (position + offset + len - (position + offset)) = bytesAt _ _ _
    rw [Nat.add_sub_cancel_left]
  · rw [if_neg (fun h => hfits h.2), runAt_pastRow (by omega) hposition]
    rfl

/-- What follows a field of the header, in the code and in the reader. -/
theorem entryField_bind {len : Nat} {f : FixedBytes len → Checked RecordError α} {g : FixedBytes len → Reader RecordError α}
    (hlen : len ≤ 14) (hnext : offset + len = next)
    (h : ∀ a, position + next ≤ row.length → f a = done (((g a).runAt row (position + next)).map Prod.fst)) :
    entryField row position offset len >>= f =
      done (((Reader.takeBytes len pastRow >>= g).runAt row (position + offset)).map Prod.fst) := by
  have hsuffix := takeBytes_leavesSuffix len pastRow
  subst hnext
  rw [entryField_eq hrow hposition len hlen, runAt_bind hsuffix _ hposition]
  by_cases hfits : position + offset + len ≤ row.length
  · rw [runAt_takeBytes hfits]
    refine (h _ (by omega)).trans ?_
    rw [← Nat.add_assoc]
    rfl
  · rw [runAt_pastRow (by omega) hposition]
    rfl

theorem wordAt_bind {f : UInt32 → Checked RecordError α} {g : UInt32 → Reader RecordError α}
    (hnext : offset + 4 = next)
    (h : ∀ a, position + next ≤ row.length → f a = done (((g a).runAt row (position + next)).map Prod.fst)) :
    wordAt row position offset >>= f =
      done (((Reader.word32 pastRow >>= g).runAt row (position + offset)).map Prod.fst) := by
  have hword : (Reader.word32 pastRow >>= g).runAt row (position + offset) =
      (Reader.takeBytes 4 pastRow >>= fun a => g (UInt32.ofNat (leNat a.val))).runAt row (position + offset) := by
    simp only [Reader.runAt, Reader.word32, Reader.leNumber, run_bind]
    cases (Reader.takeBytes 4 pastRow).run (row.drop (position + offset)) <;> rfl
  rw [hword, wordAt, bind_assoc]
  exact entryField_bind hrow hposition (by decide) hnext fun a ha => (pure_bind _ _).trans (h _ ha)

theorem byteAt_bind {f : UInt8 → Checked RecordError α} {g : UInt8 → Reader RecordError α}
    (hnext : offset + 1 = next)
    (h : ∀ a, position + next ≤ row.length → f a = done (((g a).runAt row (position + next)).map Prod.fst)) :
    byteAt row position offset >>= f =
      done (((Reader.byte pastRow >>= g).runAt row (position + offset)).map Prod.fst) := by
  have hbyte : (Reader.byte pastRow >>= g).runAt row (position + offset) =
      (Reader.takeBytes 1 pastRow >>= fun a => g (a.val.get ⟨0, by simp⟩)).runAt row (position + offset) := by
    simp only [Reader.runAt, Reader.byte, run_bind]
    cases (Reader.takeBytes 1 pastRow).run (row.drop (position + offset)) <;> rfl
  rw [hbyte, byteAt, bind_assoc]
  refine entryField_bind hrow hposition (by decide) hnext fun a ha => ?_
  have hget : a.val[0]? = some (a.val.get ⟨0, by simp⟩) := getElem?_eq_getElem _
  rw [index_of_getElem? hget, pure_bind]
  exact h _ ha

end Fields

theorem readPageHeader_eq (hrow : row.length ≤ pageRowBytes) (hposition : position ≤ row.length) :
    readPageHeader row position = done ((Transparent.readPageHeader.runAt row position).map Prod.fst) := by
  unfold readPageHeader
  refine entryField_bind hrow hposition (by decide) rfl fun tag h => ?_
  refine wordAt_bind hrow h rfl fun ordinal h => ?_
  refine wordAt_bind hrow h rfl fun fragmentCount h => ?_
  refine wordAt_bind hrow h rfl fun eventCount h => ?_
  refine wordAt_bind hrow h rfl fun minHeight h => ?_
  refine wordAt_bind hrow h rfl fun maxHeight h => ?_
  refine byteAt_bind hrow h rfl fun prevChild h => ?_
  refine wordAt_bind hrow h rfl fun prevRow h => ?_
  refine byteAt_bind hrow h rfl fun olderRuns h => ?_
  rw [runAt_pure _ h]
  rfl

theorem readPageHeader_leavesSuffix : Transparent.readPageHeader.LeavesSuffix := by
  rintro input ⟨tag, ordinal, fragmentCount, eventCount, minHeight, maxHeight, link⟩ rest h
  rw [readPageHeader_ok h]
  exact suffix_append ..

theorem readPageHeader_stop {stop : Nat} {header : Tag × UInt32 × UInt32 × UInt32 × UInt32 × UInt32 × RunLink}
    (hposition : position ≤ row.length) (h : Transparent.readPageHeader.runAt row position = .ok (header, stop)) :
    stop = position + pageEntryHeaderBytes := by
  obtain ⟨hrun, hle, hstop⟩ := runAt_ok readPageHeader_leavesSuffix hposition h
  obtain ⟨tag, ordinal, fragmentCount, eventCount, minHeight, maxHeight, link⟩ := header
  have hlength := congrArg List.length (readPageHeader_ok hrun)
  simp only [length_append, length_drop, length_leBytes, FixedBytes.length_val, length_singleton] at hlength
  unfold pageEntryHeaderBytes
  omega

theorem decodePageEntry_leavesSuffix (seen : List Tag) : (Transparent.decodePageEntry seen).LeavesSuffix := by
  intro input entry rest h
  obtain ⟨-, -, rfl⟩ := run_decodePageEntry_ok.mp h
  exact suffix_append ..

theorem expect_heights {events : List TransparentEvent} (h : events ≠ []) :
    (expect (events.map (·.height)).min? : Checked RecordError UInt32) = pure (lowestHeight events) ∧
      (expect (events.map (·.height)).max? : Checked RecordError UInt32) = pure (highestHeight events) := by
  cases events with
  | nil => exact absurd rfl h
  | cons event events => exact ⟨rfl, rfl⟩

theorem decodePageEntry_eq (seen : List Tag) (hrow : row.length ≤ pageRowBytes) (hposition : position ≤ row.length) :
    decodePageEntry row position seen = done ((Transparent.decodePageEntry seen).runAt row position) := by
  unfold decodePageEntry Transparent.decodePageEntry
  rw [readPageHeader_eq hrow hposition, runAt_bind readPageHeader_leavesSuffix _ hposition]
  cases hheader : Transparent.readPageHeader.runAt row position with
  | error e => rfl
  | ok r =>
    obtain ⟨⟨tag, ordinal, fragmentCount, eventCount, minHeight, maxHeight, link⟩, stop⟩ := r
    obtain ⟨-, -, hstop⟩ := runAt_ok readPageHeader_leavesSuffix hposition hheader
    obtain rfl := readPageHeader_stop hposition hheader
    have hpage : pageRowBytes = 4096 := rfl
    refine (pure_bind _ _).trans ?_
    rw [ok_bind]
    dsimp only
    simp only [runAt_ite_fail]
    refine ite_fails fun hcount => ite_fails fun _ => ite_fails fun _ => ?_
    have hsuffix := decodeCompact_leavesSuffix eventCount.toNat
    have hbody : (getSlice row (position + pageEntryHeaderBytes) row.length (.malformed "entry runs past row") :
        Checked RecordError Bytes) = pure (row.drop (position + pageEntryHeaderBytes)) := by
      rw [getSlice, if_pos ⟨hstop, le_rfl⟩, bytesAt, take_of_length_le (by rw [length_drop])]
    rw [add_of_le (by omega), pure_bind, hbody, pure_bind, decodeCompact_eq _ (by rw [length_drop]; omega),
      runAt_bind hsuffix _ hstop, runAt_drop hsuffix hstop]
    cases hevents : (Compact.decode eventCount.toNat).runAt (row.drop (position + pageEntryHeaderBytes)) 0 with
    | error e => rfl
    | ok r =>
      obtain ⟨events, used⟩ := r
      obtain ⟨hrun, -, hused⟩ := runAt_ok hsuffix (Nat.zero_le _) hevents
      obtain ⟨hlength, -⟩ := Compact.run_decode_ok.mp hrun
      rw [length_drop] at hused
      have hne : events ≠ [] := by
        rintro rfl
        exact hcount (.inl (UInt32.toNat_inj.mp hlength.symm))
      obtain ⟨hlowest, hhighest⟩ := expect_heights hne
      refine (pure_bind _ _).trans ?_
      change _ = done (Reader.runAt _ row (position + pageEntryHeaderBytes + used))
      dsimp only
      simp only [runAt_ite_fail]
      rw [hlowest, hhighest, pure_bind, pure_bind]
      refine ite_fails fun _ => ite_fails fun _ => ite_fails fun _ => ?_
      rw [add_of_le (by omega), pure_bind, runAt_pure _ (by omega)]
      rfl

theorem decodePageEntries_eq (count : Nat) {seen : List Tag} (hseen : seen.Nodup) (hrow : row.length ≤ pageRowBytes)
    (hposition : position ≤ row.length) :
    decodePageEntries row count position seen = done ((Transparent.decodePageEntries count seen).runAt row position) := by
  induction count generalizing position seen with
  | zero =>
    rw [Transparent.decodePageEntries, runAt_pure _ hposition]
    rfl
  | succ count ih =>
    have hsuffix := decodePageEntry_leavesSuffix seen
    rw [decodePageEntries, Transparent.decodePageEntries, decodePageEntry_eq seen hrow hposition,
      runAt_bind hsuffix _ hposition]
    refine done_bind fun read hentry => ?_
    obtain ⟨entry, stop⟩ := read
    obtain ⟨hrun, -, hstop⟩ := runAt_ok hsuffix hposition hentry
    obtain ⟨-, hnew, -⟩ := run_decodePageEntry_ok.mp hrun
    have hseen' := nodup_append_tag hseen hnew
    have hrest : (Transparent.decodePageEntries count (seen ++ [entry.tag])).LeavesSuffix := by
      intro input entries rest h
      obtain ⟨-, -, -, rfl⟩ := decodePageEntries_canonical hseen' h
      exact suffix_append ..
    dsimp only
    rw [ih hseen' hstop, runAt_bind hrest _ hstop]
    refine done_bind fun read hentries => ?_
    obtain ⟨entries, last⟩ := read
    rw [runAt_pure _ (runAt_ok hrest hstop hentries).2.2]
    rfl

theorem rest_eq {p : Reader ε α} (hp : p.LeavesSuffix) {dirty : ε} {y : Except ε α}
    (herror : ∀ e, p.run (row.drop position) = .error e → y = .error e)
    (hok : ∀ a rest, p.run (row.drop position) = .ok (a, rest) → y = if rest.any (· != 0) then .error dirty else .ok a) :
    (done (p.runAt row position) >>= fun r => sliceFrom row r.2 >>= fun rest =>
        if rest.any (· != 0) then fails dirty else pure r.1) = done y := by
  cases hrun : p.run (row.drop position) with
  | error e =>
    rw [runAt_error hrun, herror e hrun]
    rfl
  | ok r =>
    obtain ⟨a, rest⟩ := r
    have hsuffix : rest <:+ row := (hp _ _ _ hrun).trans (drop_suffix _ row)
    rw [Reader.runAt, hrun, hok a rest hrun]
    change (sliceFrom row (row.length - rest.length) >>= _) = _
    rw [sliceFrom_of_le (Nat.sub_le ..), pure_bind, ← suffix_iff_eq_drop.mp hsuffix]
    exact ite_fails fun _ => rfl

/-- Decoding a page row never panics, whatever its bytes are. -/
theorem decodePageRow_eq (row : Bytes) : decodePageRow row = done (Transparent.decodePageRow row) := by
  unfold decodePageRow Transparent.decodePageRow
  by_cases hlength : row.length ≠ pageRowBytes
  · rw [if_pos hlength, if_pos hlength]
    rfl
  rw [if_neg hlength, if_neg hlength]
  rw [not_not] at hlength
  have hheader : pageRowHeaderBytes ≤ row.length := by
    rw [hlength]
    decide
  have hhead : bytesAt row 0 (pageRowHeaderBytes - 0) = row.take pageRowHeaderBytes := rfl
  have hsuffix : ∀ count, (Transparent.decodePageEntries count []).LeavesSuffix := by
    intro count input entries rest h
    obtain ⟨-, -, -, rfl⟩ := decodePageEntries_canonical nodup_nil h
    exact suffix_append ..
  have hfour : (bytesAt row 0 (pageRowHeaderBytes - 0)).length = 4 := length_bytesAt hheader
  rw [slice_of_le (Nat.zero_le _) hheader, pure_bind, array_of_length hfour, pure_bind]
  dsimp only
  rw [hhead]
  generalize leNat (row.take pageRowHeaderBytes) = count
  by_cases hzero : count = 0
  · rw [if_pos hzero, if_pos hzero]
    exact ite_fails fun _ => rfl
  · rw [if_neg hzero, if_neg hzero]
    refine ite_fails fun _ => ?_
    rw [decodePageEntries_eq count nodup_nil hlength.le hheader]
    exact rest_eq (hsuffix count) (fun e h => by rw [h]) (fun entries rest h => by rw [h])

/-! ## Directory rows -/

theorem decodeDirectoryEntry_leavesSuffix (children : Nat) : (DirectoryEntry.decode children).LeavesSuffix := by
  intro input entry rest h
  obtain ⟨-, rfl⟩ := DirectoryEntry.decode_canonical h
  exact suffix_append ..

theorem runAt_byte {truncated : Nat → ε} {b : UInt8} (h : bytes[position]? = some b) :
    (Reader.byte truncated).runAt bytes position = .ok (b, position + 1) := by
  obtain ⟨hlt, rfl⟩ := List.getElem?_eq_some_iff.mp h
  have hrun : (Reader.byte truncated).run (bytes.drop position) = .ok (bytes[position], bytes.drop (position + 1)) :=
    run_byte_ok.mpr (drop_eq_getElem_cons hlt)
  rw [Reader.runAt, hrun]
  change Except.ok (_, bytes.length - (bytes.drop (position + 1)).length) = _
  rw [length_drop, Nat.sub_sub_self hlt]

theorem runAt_word32 {truncated : Nat → ε} (h : position + 4 ≤ bytes.length) :
    (Reader.word32 truncated).runAt bytes position =
      .ok (UInt32.ofNat (leNat (bytesAt bytes position 4)), position + 4) := by
  have hrun : (Reader.word32 truncated).run (bytes.drop position) =
      .ok (UInt32.ofNat (leNat (bytesAt bytes position 4)), bytes.drop (position + 4)) := by
    rw [run_word32_ok, leBytes_toNat_ofNat32 (length_bytesAt h), bytesAt, ← drop_drop, take_append_drop]
  rw [Reader.runAt, hrun]
  change Except.ok (_, bytes.length - (bytes.drop (position + 4)).length) = _
  rw [length_drop, Nat.sub_sub_self h]

theorem byte_leavesSuffix (truncated : Nat → ε) : (Reader.byte truncated).LeavesSuffix := by
  intro input b rest h
  rw [run_byte_ok.mp h]
  exact suffix_cons ..

theorem word32_leavesSuffix (truncated : Nat → ε) : (Reader.word32 truncated).LeavesSuffix := by
  intro input v rest h
  rw [run_word32_ok.mp h]
  exact suffix_append ..

theorem decodeDirectoryEntry_eq (children : Nat) (hbytes : bytes.length ≤ pageRowBytes) :
    decodeDirectoryEntry bytes children = done ((DirectoryEntry.decode children).runAt bytes 0) := by
  unfold decodeDirectoryEntry DirectoryEntry.decode
  rw [runAt_remaining_bind, runAt_ite_fail]
  refine ite_fails fun hlength => ?_
  have hheader : directoryEntryHeaderBytes ≤ bytes.length := not_lt.mp hlength
  have hlen : 19 ≤ bytes.length := hheader
  have hlt : 14 < bytes.length := by omega
  have hflags : bytes[14]? = some bytes[14] := getElem?_eq_getElem hlt
  rw [runAt_bind (takeBytes_leavesSuffix _ _) _ (Nat.zero_le _), runAt_takeBytes (by omega),
    ok_bind, runAt_bind (byte_leavesSuffix _) _ (by omega), runAt_byte hflags, ok_bind,
    runAt_bind (word32_leavesSuffix _) _ (by omega), runAt_word32 (by omega), ok_bind,
    slice_of_le (by decide) (by omega), pure_bind, array_of_length (length_bytesAt (by omega)), pure_bind,
    index_of_getElem? hflags, pure_bind, slice_of_le (by decide) (by omega), pure_bind,
    array_of_length (length_bytesAt (by omega)), pure_bind]
  simp only [runAt_ite_fail]
  refine ite_fails fun _ => ite_fails fun _ => ite_fails fun _ => ite_fails fun _ => ?_
  generalize (if bytes[14] &&& flagOneInline ≠ 0 then 1 else inlineEvents) = count
  have hsuffix := decodeCompact_leavesSuffix count
  rw [sliceFrom_of_le hheader, pure_bind, decodeCompact_eq _ (by rw [length_drop]; omega),
    runAt_bind hsuffix _ hlen, runAt_drop hsuffix hlen]
  cases hinline : (Compact.decode count).runAt (bytes.drop directoryEntryHeaderBytes) 0 with
  | error e =>
    change _ = done (Except.map _ ((Compact.decode count).runAt (bytes.drop directoryEntryHeaderBytes) 0) >>= _)
    rw [hinline]
    rfl
  | ok r =>
    obtain ⟨inline, used⟩ := r
    obtain ⟨-, -, hused⟩ := runAt_ok hsuffix (Nat.zero_le _) hinline
    rw [length_drop] at hused
    have hused' : 19 + used ≤ bytes.length := by
      change used ≤ bytes.length - 19 at hused
      omega
    change _ = done (Except.map _ ((Compact.decode count).runAt (bytes.drop directoryEntryHeaderBytes) 0) >>= _)
    rw [hinline]
    refine (pure_bind _ _).trans ?_
    change _ = done (Reader.runAt _ bytes (19 + used))
    rw [runAt_ite_fail]
    refine ite_fails fun _ => ?_
    rw [add_of_le (by change 19 + used ≤ _; omega), pure_bind, runAt_pure _ hused']
    rfl

theorem decodeDirectoryEntries_eq (children count : Nat) {seen : List Tag} (hseen : seen.Nodup)
    (hrow : row.length ≤ pageRowBytes) (hposition : position ≤ row.length) :
    decodeDirectoryEntries row children count position seen =
      done ((Transparent.decodeDirectoryEntries children count seen).runAt row position) := by
  induction count generalizing position seen with
  | zero =>
    rw [Transparent.decodeDirectoryEntries, runAt_pure _ hposition]
    rfl
  | succ count ih =>
    have hsuffix := decodeDirectoryEntry_leavesSuffix children
    rw [decodeDirectoryEntries, Transparent.decodeDirectoryEntries, sliceFrom_of_le hposition, pure_bind,
      decodeDirectoryEntry_eq children (by rw [length_drop]; omega), runAt_bind hsuffix _ hposition,
      runAt_drop hsuffix hposition]
    cases hentry : (DirectoryEntry.decode children).runAt (row.drop position) 0 with
    | error e => rfl
    | ok r =>
      obtain ⟨entry, used⟩ := r
      obtain ⟨-, -, hused⟩ := runAt_ok hsuffix (Nat.zero_le _) hentry
      rw [length_drop] at hused
      refine (pure_bind _ _).trans ?_
      change _ = done (Reader.runAt _ row (position + used))
      rw [runAt_ite_fail]
      refine ite_fails fun hnew => ?_
      have hseen' : (seen ++ [entry.tag]).Nodup := nodup_append_tag hseen (by simpa using hnew)
      have hrest : (Transparent.decodeDirectoryEntries children count (seen ++ [entry.tag])).LeavesSuffix := by
        intro input entries rest h
        obtain ⟨-, -, -, rfl⟩ := decodeDirectoryEntries_canonical hseen' h
        exact suffix_append ..
      have hstop : position + used ≤ row.length := by omega
      rw [add_of_le (by omega), pure_bind, ih hseen' hstop, runAt_bind hrest _ hstop]
      refine done_bind fun read hentries => ?_
      obtain ⟨entries, last⟩ := read
      rw [runAt_pure _ (runAt_ok hrest hstop hentries).2.2]
      rfl

/-- Decoding a directory row never panics, whatever its bytes are. -/
theorem decodeDirectoryRow_eq (row : Bytes) (children : Nat) :
    decodeDirectoryRow row children = done (Transparent.decodeDirectoryRow row children) := by
  unfold decodeDirectoryRow Transparent.decodeDirectoryRow
  refine ite_fails fun hlength => ?_
  rw [not_not] at hlength
  have hheader : directoryRowHeaderBytes ≤ row.length := by
    rw [hlength]
    decide
  have hhead : bytesAt row 0 (4 - 0) = row.take directoryRowHeaderBytes := rfl
  have hfour : (bytesAt row 0 (4 - 0)).length = 4 := length_bytesAt hheader
  have hsuffix : ∀ count, (Transparent.decodeDirectoryEntries children count []).LeavesSuffix := by
    intro count input entries rest h
    obtain ⟨-, -, -, rfl⟩ := decodeDirectoryEntries_canonical nodup_nil h
    exact suffix_append ..
  have hfirst : 4 ≤ row.length := hheader
  rw [slice_of_le (Nat.zero_le _) hfirst, pure_bind, array_of_length hfour, pure_bind]
  dsimp only
  rw [hhead]
  refine ite_fails fun _ => ?_
  rw [decodeDirectoryEntries_eq children _ nodup_nil hlength.le hheader]
  exact rest_eq (hsuffix _) (fun e h => by rw [h]) (fun entries rest h => by rw [h])

end Zakura.Transparent.Sliced
