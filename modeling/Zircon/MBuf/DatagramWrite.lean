import Zircon.MBuf.StreamWrite

/-! The copy loop of `WriteDatagram`. Given the cells `AllocMBufs` hands out for a payload, it fills
each from the start of its payload, all full but the last, and the cells then hold `src[pos, len)`
in order; or a copy faults, and the trace says so. -/

namespace Zircon.MBufChain

variable {P : PageSize} {src : UserIn} {len : Nat}

/-- The copy loop of `WriteDatagram` over cells that hold exactly the bytes left. -/
theorem fillDatagram_spec : ∀ {bufs : List MBuf} {s : WriteState},
    (∀ b ∈ bufs, b.len_ = 0 ∧ b.pktLen_ = 0) → s.pos ≤ len →
    len - s.pos ≤ bufs.length * MBuf.kPayloadSize P →
    bufs.length * MBuf.kPayloadSize P < len - s.pos + MBuf.kPayloadSize P →
    (∃ calls, (fillDatagram P src len bufs s).2.events = s.events ++ calls ∧
      ∀ e ∈ calls, ∃ b ∈ bufs, e.WritesTo (MBuf.kPayloadSize P) b) ∧
    (fillDatagram P src len bufs s).2.wraps = s.wraps ∧
    (∀ filled, (fillDatagram P src len bufs s).1 = some filled →
      filled.length = bufs.length ∧ filled.map (·.page_) = bufs.map (·.page_) ∧
      filled.flatMap MBuf.bytes = slice src.bytes s.pos (len - s.pos) ∧ StreamCells P filled) ∧
    ((fillDatagram P src len bufs s).1 = none →
      ∃ e ∈ (fillDatagram P src len bufs s).2.events, e.ok = false)
  | [], s, _, _, enough, _ => by
    simp only [List.length_nil, Nat.zero_mul, Nat.le_zero] at enough
    refine ⟨⟨[], (List.append_nil _).symm, fun _ h => nomatch h⟩, rfl, fun filled some => ?_,
      fun h => nomatch h⟩
    simp only [fillDatagram, Option.some.injEq] at some
    subst some
    simp only [List.length_nil, List.map_nil, List.flatMap_nil, enough, slice_zero, true_and]
    exact ⟨by simp, by simp⟩
  | b :: bufs, s, fresh, pos_le, enough, short => by
    have kP_pos := MBuf.kPayloadSize_pos P
    have kP_lt := MBuf.kPayloadSize_lt P
    obtain ⟨len0, pkt0⟩ := fresh b (.head _)
    simp only [List.length_cons, Nat.add_mul, Nat.one_mul] at enough short
    have n_pos : 0 < min (MBuf.kPayloadSize P) (len - s.pos) := by
      have := Nat.zero_le (bufs.length * MBuf.kPayloadSize P); omega
    by_cases copied : src.copy s.pos (min (MBuf.kPayloadSize P) (len - s.pos)) = .ok
    · rw [fillDatagram]
      dsimp only
      rw [if_pos copied]
      set n := min (MBuf.kPayloadSize P) (len - s.pos) with n_eq
      obtain ⟨⟨calls, events, writes⟩, wraps, filled, fault⟩ := fillDatagram_spec (s := ⟨s.pos + n,
          s.size, s.events ++ [.copyFromUser s.pos b.page_ 0 n (src.copy s.pos n)],
          s.wraps || decide (2 ^ 32 ≤ b.len_ + n)⟩) (fun c hc => fresh c (.tail _ hc))
        (by dsimp only; omega) (by dsimp only; omega) (by dsimp only; omega)
      refine ⟨⟨.copyFromUser s.pos b.page_ 0 n (src.copy s.pos n) :: calls, by rw [events]; simp, ?_⟩, by rw [wraps, len0, decide_eq_false (by omega), Bool.or_false],
        fun all some => ?_, fun none => fault (by simpa using none)⟩
      · rintro e (_ | ⟨_, mem⟩)
        · exact ⟨b, .head _, rfl, len0.symm, by omega⟩
        · obtain ⟨c, hc, writes⟩ := writes e mem
          exact ⟨c, .tail _ hc, writes⟩
      · obtain ⟨rest, got, rfl⟩ := Option.map_eq_some'.mp some
        obtain ⟨length, pages, bytes, cells⟩ := filled rest got
        dsimp only at bytes
        have first : (b.copyIn 0 src.bytes s.pos n).bytes = slice src.bytes s.pos n := by
          have := MBuf.bytes_copyIn b src.bytes s.pos n
          rw [len0] at this
          rw [this, MBuf.bytes, len0, slice_zero, List.nil_append]
        refine ⟨by simp [length], by simp [pages], ?_, ⟨fun c mem => ?_, fun c mem => ?_⟩⟩
        · rw [List.flatMap_cons, first, bytes, slice_append _ rfl,
            show n + (len - (s.pos + n)) = len - s.pos by omega]
        · rcases List.mem_cons.mp mem with rfl | mem
          · simp only [MBuf.copyIn_len, MBuf.copyIn_pktLen, len0, pkt0, Nat.zero_add]
            exact ⟨n_pos, Nat.min_le_left _ _, trivial⟩
          · exact cells.cells c mem
        · cases rest with
          | nil => simp at mem
          | cons r rest =>
            rw [List.dropLast_cons₂] at mem
            rcases List.mem_cons.mp mem with rfl | mem
            · have : 0 < bufs.length := by rw [← length]; exact Nat.succ_pos _
              have : MBuf.kPayloadSize P ≤ bufs.length * MBuf.kPayloadSize P :=
                Nat.le_mul_of_pos_left _ this
              simp only [MBuf.copyIn_len, len0]; omega
            · exact cells.full c mem
    · rw [fillDatagram]
      dsimp only
      rw [if_neg copied]
      refine ⟨⟨_, rfl, ?_⟩, rfl, fun _ h => (by cases h), fun _ => ⟨_, List.mem_append_right _ (.head _), ?_⟩⟩
      · simp only [List.mem_singleton, forall_eq]
        exact ⟨b, .head _, rfl, len0.symm, by omega⟩
      · exact beq_false_of_ne copied

end Zircon.MBufChain
