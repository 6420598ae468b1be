/- module: Riscv32Cpu/QemuDiff/Wire
   source: CODE/nemu/tools/qemu-diff/src/protocol.c
   digest: What recv_packet makes of any stream of bytes: where a packet is, what it carries. -/

import Mathlib.Data.List.TakeWhile
import Riscv32Cpu.QemuDiff.Protocol

set_option autoImplicit false
set_option relaxedAutoImplicit false

namespace Riscv32Cpu.QemuDiff.Wire

open Lib.Memory Protocol

/-- A packet as it stands on the line, with the two characters that should be its checksum. -/
structure Packet where
  body : Text
  msb : Byte
  lsb : Byte
  start : ascii '$' ∉ body
  stop : ascii '#' ∉ body

def Packet.bytes (p : Packet) : Text := ascii '$' :: (p.body ++ [ascii '#', p.msb, p.lsb])

def Packet.Intact (p : Packet) : Prop := (sumOf p.body).setWidth 16 = gdbDecodeHex p.msb p.lsb

instance (p : Packet) : Decidable p.Intact := inferInstanceAs (Decidable (_ = _))

/-- What may stand on the line before a packet: no packet that was begun in it has an end. -/
def Quiet (junk : Text) : Prop := ascii '#' ∉ junk.dropWhile (· ≠ ascii '$')

/-- The bodies that stand for a reply: a character for itself or escaped, and the last character
once more as often as a count says. -/
inductive Encodes : Text → Text → Prop
  | nil : Encodes [] []
  | plain {body reply : Text} {c : Byte} (before : Encodes body reply)
      (ordinary : special c = false) : Encodes (body ++ [c]) (reply ++ [c])
  | escaped {body reply : Text} {c : Byte} (before : Encodes body reply)
      (ordinary : special (c ^^^ 0x20) = false) :
      Encodes (body ++ [ascii '\x7d', c ^^^ 0x20]) (reply ++ [c])
  | repeated {body reply : Text} {last count : Byte} (before : Encodes body (reply ++ [last]))
      (least : 29 ≤ count) (most : count ≤ 126) (start : count ≠ ascii '$')
      (stop : count ≠ ascii '#') :
      Encodes (body ++ [ascii '*', count])
        (reply ++ [last] ++ List.replicate (count.toNat - 29) last)

theorem sumOf_cons (c : Byte) (t : Text) : sumOf (c :: t) = c + sumOf t := by
  rw [sumOf, List.foldl_cons, foldl_add, zero_add]

theorem marks_ne : ascii '#' ≠ ascii '$' ∧ ascii '\x7d' ≠ ascii '$' ∧ ascii '\x7d' ≠ ascii '#' ∧
    ascii '*' ≠ ascii '$' ∧ ascii '*' ≠ ascii '#' ∧ ascii '*' ≠ ascii '\x7d' := by decide

theorem runLength_eq_some {reply input : Text} {count : Nat}
    (h : runLength reply input = some count) :
    ∃ c rest, input = c :: rest ∧ c ≠ ascii '$' ∧ c ≠ ascii '#' := by
  cases input with
  | nil => cases h
  | cons c rest =>
    simp only [runLength] at h
    split at h
    · cases h
    · next hvalid =>
      simp only [not_or] at hvalid
      exact ⟨c, rest, rfl, hvalid.2.2.2.1, hvalid.2.2.2.2⟩

theorem recvLoop_inside {c : Byte} (hstart : c ≠ ascii '$') (hstop : c ≠ ascii '#')
    (input reply : Text) (sum : Byte) (esc : Bool) :
    (∃ reply' esc', recvLoop 0 (c :: input) reply sum esc =
        recvLoop 0 input reply' (sum + c) esc') ∨
      ∃ n rest reply' esc', input = n :: rest ∧ n ≠ ascii '$' ∧ n ≠ ascii '#' ∧
        recvLoop 0 (c :: input) reply sum esc = recvLoop 0 rest reply' (sum + c + n) esc' := by
  rw [recvLoop, if_neg hstart, if_neg hstop]
  by_cases hescape : c = ascii '\x7d'
  · rw [if_pos hescape]
    exact .inl ⟨reply, true, rfl⟩
  rw [if_neg hescape]
  cases hrun : (if c = ascii '*' then runLength reply input else none) with
  | none => exact .inl ⟨_, false, rfl⟩
  | some count =>
    by_cases hstar : c = ascii '*'
    · rw [if_pos hstar] at hrun
      obtain ⟨n, rest, rfl, hn, hn'⟩ := runLength_eq_some hrun
      exact .inr ⟨n, rest, _, esc, rfl, hn, hn', rfl⟩
    · rw [if_neg hstar] at hrun
      cases hrun

theorem recvLoop_along (body : Text) (hstart : ascii '$' ∉ body) (hstop : ascii '#' ∉ body)
    {input : Text} (hinput : input.head? = some (ascii '$') ∨ input.head? = some (ascii '#') ∨
      input = []) (reply : Text) (sum : Byte) (esc : Bool) :
    ∃ reply' esc', recvLoop 0 (body ++ input) reply sum esc =
      recvLoop 0 input reply' (sum + sumOf body) esc' := by
  induction hn : body.length using Nat.strongRecOn generalizing body reply sum esc with
  | ind n ih =>
    cases body with
    | nil => exact ⟨reply, esc, by rw [sumOf_nil, add_zero, List.nil_append]⟩
    | cons c body =>
      rw [List.mem_cons, not_or] at hstart hstop
      rw [List.length_cons] at hn
      rcases recvLoop_inside (Ne.symm hstart.1) (Ne.symm hstop.1) (body ++ input) reply sum esc
        with ⟨reply₁, esc₁, hstep⟩ | ⟨k, rest, reply₁, esc₁, hcons, hk, hk', hstep⟩
      · obtain ⟨reply', esc', hrest⟩ :=
          ih body.length (by omega) body hstart.2 hstop.2 reply₁ (sum + c) esc₁ rfl
        refine ⟨reply', esc', ?_⟩
        rw [List.cons_append, hstep, hrest, sumOf_cons, add_assoc]
      · cases body with
        | nil =>
          rw [List.nil_append] at hcons
          subst hcons
          simp only [List.head?_cons, Option.some.injEq, reduceCtorEq, or_false] at hinput
          exact absurd hinput (not_or.mpr ⟨hk, hk'⟩)
        | cons k' body =>
          rw [List.cons_append] at hcons hstep
          obtain ⟨rfl, rfl⟩ := List.cons.inj hcons
          rw [List.mem_cons, not_or] at hstart hstop
          rw [List.length_cons] at hn
          obtain ⟨reply', esc', hrest⟩ := ih body.length (by omega) body
            hstart.2.2 hstop.2.2 reply₁ (sum + c + k') esc₁ rfl
          refine ⟨reply', esc', ?_⟩
          rw [List.cons_append, List.cons_append, hstep, hrest, sumOf_cons, sumOf_cons,
            ← add_assoc, ← add_assoc]

theorem recvLoop_restart (junk : Text) (hstop : ascii '#' ∉ junk) (input reply : Text) (sum : Byte)
    (esc : Bool) : recvLoop 0 (junk ++ ascii '$' :: input) reply sum esc =
      recvLoop 0 input [] 0 false := by
  induction hn : junk.length using Nat.strongRecOn generalizing junk reply sum esc with
  | ind n ih =>
    by_cases hstart : ascii '$' ∈ junk
    · obtain ⟨pre, post, rfl, hpre⟩ := List.eq_append_cons_of_mem hstart
      rw [List.mem_append, List.mem_cons, not_or, not_or] at hstop
      rw [List.length_append, List.length_cons] at hn
      have hhead : (ascii '$' :: (post ++ ascii '$' :: input)).head? = some (ascii '$') := rfl
      obtain ⟨reply', esc', halong⟩ :=
        recvLoop_along pre hpre hstop.1 (.inl hhead) reply sum esc
      rw [List.append_assoc, List.cons_append, halong, recvLoop, if_pos rfl]
      exact ih post.length (by omega) post hstop.2.2 [] 0 false rfl
    · have hhead : (ascii '$' :: input).head? = some (ascii '$') := rfl
      obtain ⟨reply', esc', halong⟩ :=
        recvLoop_along junk hstart hstop (.inl hhead) reply sum esc
      rw [halong, recvLoop, if_pos rfl]

theorem split_at_start {t : Text} (h : ascii '$' ∈ t) :
    ∃ pre post, t = pre ++ ascii '$' :: post ∧ ascii '$' ∉ post := by
  obtain ⟨post, pre, hsplit, hpost⟩ := List.eq_append_cons_of_mem (List.mem_reverse.mpr h)
  refine ⟨pre.reverse, post.reverse, ?_, fun hmem => hpost (List.mem_reverse.mp hmem)⟩
  rw [← List.reverse_reverse t, hsplit]
  simp

theorem recvLoop_endless (input : Text) (hstop : ascii '#' ∉ input) :
    recvLoop 0 input [] 0 false = none := by
  have hplain : ∀ t : Text, ascii '$' ∉ t → ascii '#' ∉ t → recvLoop 0 t [] 0 false = none := by
    intro t ht ht'
    obtain ⟨reply', esc', halong⟩ := recvLoop_along t ht ht' (.inr (.inr rfl)) [] 0 false
    rw [List.append_nil] at halong
    rw [halong, recvLoop]
  by_cases hstart : ascii '$' ∈ input
  · obtain ⟨pre, post, rfl, hpost⟩ := split_at_start hstart
    rw [List.mem_append, List.mem_cons, not_or, not_or] at hstop
    rw [recvLoop_restart pre hstop.1, hplain post hpost hstop.2.2]
  · exact hplain input hstart hstop

theorem recvLoop_stop (input reply : Text) (sum : Byte) (esc : Bool) :
    recvLoop 0 (ascii '#' :: input) reply sum esc =
      some ⟨reply, sum.setWidth 16 = gdbDecodeHex (input.headD eof) (input.tail.headD eof),
        input.drop 2⟩ := by
  rw [recvLoop, if_neg marks_ne.1, if_pos rfl, add_sub_cancel_right]

theorem dropWhile_junk {t : Text} (h : ascii '$' ∉ t) : t.dropWhile (· ≠ ascii '$') = [] := by
  rw [List.dropWhile_eq_nil_iff]
  intro c hc
  rw [decide_eq_true_iff]
  rintro rfl
  exact h hc

theorem dropWhile_start {t : Text} (h : ascii '$' ∉ t) (rest : Text) :
    (t ++ ascii '$' :: rest).dropWhile (· ≠ ascii '$') = ascii '$' :: rest := by
  rw [List.dropWhile_append, dropWhile_junk h, List.isEmpty_nil, if_pos rfl,
    List.dropWhile_cons_of_neg (by simp)]

theorem recvPacket_of_no_start {input : Text} (h : ascii '$' ∉ input) : recvPacket input = none := by
  rw [recvPacket, dropWhile_junk h, List.tail_nil, recvLoop]

theorem recvPacket_of_quiet {junk : Text} (h : Quiet junk) (input : Text) :
    recvPacket (junk ++ ascii '$' :: input) = recvLoop 0 input [] 0 false := by
  by_cases hstart : ascii '$' ∈ junk
  · obtain ⟨pre, post, rfl, hpre⟩ := List.eq_append_cons_of_mem hstart
    rw [Quiet, dropWhile_start hpre, List.mem_cons, not_or] at h
    rw [recvPacket, List.append_assoc, List.cons_append, dropWhile_start hpre, List.tail_cons]
    exact recvLoop_restart post h.2 input [] 0 false
  · rw [recvPacket, dropWhile_start hstart, List.tail_cons]

theorem runLength_of_count {reply : Text} {count : Byte} (hreply : reply ≠ []) (least : 29 ≤ count)
    (most : count ≤ 126) (hstart : count ≠ ascii '$') (hstop : count ≠ ascii '#') (input : Text) :
    runLength reply (count :: input) = some (count.toNat - 29) := by
  simp only [runLength]
  rw [if_neg]
  simp only [not_or]
  exact ⟨hreply, BitVec.not_lt.mpr least, BitVec.not_lt.mpr most, hstart, hstop⟩

theorem recvLoop_encodes {body reply : Text} (h : Encodes body reply) (input : Text) :
    recvLoop 0 (body ++ input) [] 0 false = recvLoop 0 input reply (sumOf body) false := by
  induction h generalizing input with
  | nil => rfl
  | @plain body reply c before ordinary ih =>
    have hsum : sumOf [c] = c := zero_add c
    rw [List.append_assoc, ih, List.singleton_append, recvLoop_plain ordinary,
      if_neg Bool.false_ne_true, sumOf_append, hsum]
  | @escaped body reply c before ordinary ih =>
    have hback : (c ^^^ 0x20) ^^^ 0x20 = c := by
      rw [BitVec.xor_assoc, BitVec.xor_self, BitVec.xor_zero]
    have hsum : sumOf [ascii '\x7d', c ^^^ 0x20] = ascii '\x7d' + (c ^^^ 0x20) := by
      rw [← zero_add (ascii '\x7d')]
      rfl
    rw [List.append_assoc, ih, List.cons_append, List.singleton_append, recvLoop,
      if_neg marks_ne.2.1, if_neg marks_ne.2.2.1, if_pos rfl, recvLoop_plain ordinary, if_pos rfl,
      hback, sumOf_append, hsum, add_assoc]
  | @repeated body reply last count before least most start stop ih =>
    have hsum : sumOf [ascii '*', count] = ascii '*' + count := by
      rw [← zero_add (ascii '*')]
      rfl
    have hrun : runLength (reply ++ [last]) (count :: input) = some (count.toNat - 29) :=
      runLength_of_count (by simp) least most start stop input
    rw [List.append_assoc, ih, List.cons_append, List.singleton_append, recvLoop,
      if_neg marks_ne.2.2.2.1, if_neg marks_ne.2.2.2.2.1, if_neg marks_ne.2.2.2.2.2, if_pos rfl,
      hrun]
    simp only [recvLoop, List.headD_cons, List.getLastD_concat]
    rw [sumOf_append, hsum, add_assoc]

theorem encodes_escape (reply : Text) : Encodes (escape reply) reply := by
  induction reply using List.reverseRecOn with
  | nil => exact .nil
  | append_singleton reply c ih =>
    have hsplit : escape (reply ++ [c]) = escape reply ++ escapeChar c := by
      simp [escape]
    rw [hsplit, escapeChar]
    cases hc : special c with
    | false => exact .plain ih hc
    | true =>
      refine .escaped ih ?_
      clear hsplit
      revert c
      decide

theorem bytes_append (junk : Text) (p : Packet) (rest : Text) :
    junk ++ p.bytes ++ rest =
      junk ++ ascii '$' :: (p.body ++ ascii '#' :: p.msb :: p.lsb :: rest) := by
  simp [Packet.bytes]

theorem recvPacket_bytes {junk : Text} (h : Quiet junk) (p : Packet) (rest : Text) :
    ∃ reply, recvPacket (junk ++ p.bytes ++ rest) = some ⟨reply, decide p.Intact, rest⟩ := by
  have hhead : (ascii '#' :: p.msb :: p.lsb :: rest).head? = some (ascii '#') := rfl
  obtain ⟨reply, esc, halong⟩ :=
    recvLoop_along p.body p.start p.stop (.inr (.inl hhead)) [] 0 false
  refine ⟨reply, ?_⟩
  rw [bytes_append, recvPacket_of_quiet h, halong, recvLoop_stop, zero_add]
  rfl

/-- Whatever is read was a packet, if perhaps one that the end of the stream has cut. -/
theorem exists_of_recvPacket {input : Text} {r : Received} (h : recvPacket input = some r) :
    ∃ junk body tail, Quiet junk ∧ ascii '$' ∉ body ∧ ascii '#' ∉ body ∧
      input = junk ++ ascii '$' :: (body ++ ascii '#' :: tail) ∧ r.rest = tail.drop 2 ∧
      r.sumOk = decide ((sumOf body).setWidth 16 =
        gdbDecodeHex (tail.headD eof) (tail.tail.headD eof)) := by
  by_cases hstart : ascii '$' ∈ input
  · obtain ⟨pre, post, rfl, hpre⟩ := List.eq_append_cons_of_mem hstart
    by_cases hstop : ascii '#' ∈ post
    · obtain ⟨middle, tail, rfl, hmiddle⟩ := List.eq_append_cons_of_mem hstop
      have hfound : ∃ junk body, Quiet junk ∧ ascii '$' ∉ body ∧ ascii '#' ∉ body ∧
          pre ++ ascii '$' :: middle = junk ++ ascii '$' :: body := by
        by_cases hagain : ascii '$' ∈ middle
        · obtain ⟨left, body, rfl, hbody⟩ := split_at_start hagain
          rw [List.mem_append, List.mem_cons, not_or, not_or] at hmiddle
          refine ⟨pre ++ ascii '$' :: left, body, ?_, hbody, hmiddle.2.2, by simp⟩
          rw [Quiet, dropWhile_start hpre, List.mem_cons, not_or]
          exact ⟨marks_ne.1, hmiddle.1⟩
        · refine ⟨pre, middle, ?_, hagain, hmiddle, rfl⟩
          rw [Quiet, dropWhile_junk hpre]
          exact List.not_mem_nil
      obtain ⟨junk, body, hquiet, hbody, hbody', hsplit⟩ := hfound
      have hinput : pre ++ ascii '$' :: (middle ++ ascii '#' :: tail) =
          junk ++ ascii '$' :: (body ++ ascii '#' :: tail) := by
        have happend := congrArg (· ++ ascii '#' :: tail) hsplit
        simpa using happend
      have hhead : (ascii '#' :: tail).head? = some (ascii '#') := rfl
      obtain ⟨reply, esc, halong⟩ :=
        recvLoop_along body hbody hbody' (.inr (.inl hhead)) [] 0 false
      rw [hinput, recvPacket_of_quiet hquiet, halong, recvLoop_stop, zero_add] at h
      obtain rfl := Option.some.inj h
      exact ⟨junk, body, tail, hquiet, hbody, hbody', hinput, rfl, rfl⟩
    · rw [recvPacket, dropWhile_start hpre, List.tail_cons, recvLoop_endless post hstop] at h
      cases h
  · rw [recvPacket_of_no_start hstart] at h
    cases h

theorem checksum_ne_eof (b c : Byte) : b.setWidth 16 ≠ gdbDecodeHex c eof := by
  have heof : gdbDecodeHex c eof = 0xffff := by
    have hdigit : isxdigit eof = false := by decide
    rw [gdbDecodeHex, hdigit, Bool.not_false, Bool.or_true, if_pos rfl]
  rw [heof]
  revert b
  decide

/-- The client accepts exactly the last packet that was begun, and only with its own checksum; the
reply is what the body stands for, whatever came before it on the line and however it is escaped
and counted; and one changed character of a body is noticed. -/
theorem recv_packet_reads :
    (∀ input rest : Text, (∃ reply, recvPacket input = some ⟨reply, true, rest⟩) ↔
      ∃ junk, ∃ p : Packet, Quiet junk ∧ p.Intact ∧ input = junk ++ p.bytes ++ rest) ∧
    (∀ (junk : Text) (p : Packet) (reply rest : Text), Quiet junk → Encodes p.body reply →
      recvPacket (junk ++ p.bytes ++ rest) = some ⟨reply, decide p.Intact, rest⟩) ∧
    (∀ (p p' : Packet) (u v : Text) (c c' : Byte), p.body = u ++ c :: v → p'.body = u ++ c' :: v →
      p.msb = p'.msb → p.lsb = p'.lsb → p.Intact → p'.Intact → c = c') := by
  refine ⟨fun input rest => ⟨?_, ?_⟩, ?_, ?_⟩
  · rintro ⟨reply, h⟩
    obtain ⟨junk, body, tail, hquiet, hbody, hbody', rfl, hrest, hok⟩ := exists_of_recvPacket h
    have hsum := of_decide_eq_true hok.symm
    match tail, hsum, hrest with
    | [], hsum, _ => exact absurd hsum (checksum_ne_eof _ _)
    | [msb], hsum, _ => exact absurd hsum (checksum_ne_eof _ _)
    | msb :: lsb :: tail, hsum, hrest =>
      have hrest : rest = tail := hrest
      exact ⟨junk, ⟨body, msb, lsb, hbody, hbody'⟩, hquiet, hsum, by rw [bytes_append, hrest]⟩
  · rintro ⟨junk, p, hquiet, hintact, rfl⟩
    obtain ⟨reply, h⟩ := recvPacket_bytes hquiet p rest
    rw [decide_eq_true hintact] at h
    exact ⟨reply, h⟩
  · intro junk p reply rest hquiet hbody
    rw [bytes_append, recvPacket_of_quiet hquiet, recvLoop_encodes hbody, recvLoop_stop]
    rfl
  · intro p p' u v c c' hp hp' hmsb hlsb hintact hintact'
    have hsum : sumOf p.body = sumOf p'.body := by
      have hwide := hintact.trans (hmsb ▸ hlsb ▸ hintact'.symm)
      have hnat := congrArg BitVec.toNat hwide
      rw [BitVec.toNat_setWidth_of_le (by decide), BitVec.toNat_setWidth_of_le (by decide)] at hnat
      exact BitVec.eq_of_toNat_eq hnat
    rw [hp, hp', sumOf_append, sumOf_append, sumOf_cons, sumOf_cons] at hsum
    exact add_right_cancel (add_left_cancel hsum)

end Riscv32Cpu.QemuDiff.Wire
