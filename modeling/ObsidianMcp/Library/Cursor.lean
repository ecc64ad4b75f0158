import ObsidianMcp.Library.Wire

/-! # Checked cursors over a byte string

A cursor walks over a byte string by its offset. An index or a subtraction out of range ends a walk
without a result, which is not the error that the walk reports. What a walk takes in is a set of
pieces, so the format of a record composes from the formats of its fields. -/

namespace ObsidianMcp

/-! ## Big-endian numbers -/

def beBytes (width n : ℕ) : List UInt8 :=
  (leBytes width n).reverse

def beValue (bytes : List UInt8) : ℕ :=
  leValue bytes.reverse

@[simp] theorem length_beBytes (width n : ℕ) : (beBytes width n).length = width := by
  rw [beBytes, List.length_reverse, length_leBytes]

theorem beValue_beBytes {width n : ℕ} (h : n < 256 ^ width) : beValue (beBytes width n) = n := by
  rw [beValue, beBytes, List.reverse_reverse, leValue_leBytes h]

theorem leValue_lt (bytes : List UInt8) : leValue bytes < 256 ^ bytes.length := by
  induction bytes with
  | nil => exact Nat.one_pos
  | cons b bytes ih =>
      have hb := b.toNat_lt
      rw [leValue, List.length_cons, pow_succ]
      omega

theorem leBytes_leValue (bytes : List UInt8) : leBytes bytes.length (leValue bytes) = bytes := by
  induction bytes with
  | nil => rfl
  | cons b bytes ih =>
      have hb := b.toNat_lt
      rw [List.length_cons, leBytes, leValue]
      have hdiv : (b.toNat + 256 * leValue bytes) / 256 = leValue bytes := by omega
      rw [hdiv, ih]
      congr 1
      apply UInt8.toNat_inj.mp
      rw [UInt8.toNat_ofNat']
      omega

theorem beValue_lt (bytes : List UInt8) : beValue bytes < 256 ^ bytes.length := by
  rw [← List.length_reverse]
  exact leValue_lt bytes.reverse

/-- A number of a given width has one spelling. -/
theorem eq_beBytes (bytes : List UInt8) : bytes = beBytes bytes.length (beValue bytes) := by
  rw [beBytes, beValue, ← List.length_reverse, leBytes_leValue, List.reverse_reverse]

/-! ## Cursors -/

/-- A computation on an offset. Without a result it went out of range. -/
def Cursor (ε α : Type) : Type :=
  ℕ → Option (Except ε (α × ℕ))

namespace Cursor

variable {ε α β : Type}

def ret (a : α) : Cursor ε α :=
  fun offset => some (.ok (a, offset))

def andThen (m : Cursor ε α) (f : α → Cursor ε β) : Cursor ε β :=
  fun offset =>
    match m offset with
    | none => none
    | some (.error e) => some (.error e)
    | some (.ok (a, stop)) => f a stop

instance : Monad (Cursor ε) where
  pure := ret
  bind := andThen

def fail (e : ε) : Cursor ε α :=
  fun _ => some (.error e)

/-- An index out of range. -/
def outOfRange : Cursor ε α :=
  fun _ => none

/-- The offset. -/
def position : Cursor ε ℕ :=
  fun offset => some (.ok (offset, offset))

/-- Look ahead. -/
def peek (m : Cursor ε α) : Cursor ε α :=
  fun offset =>
    match m offset with
    | none => none
    | some (.error e) => some (.error e)
    | some (.ok (a, _)) => some (.ok (a, offset))

/-- The bytes from the offset on, counted. -/
def remaining (bytes : List UInt8) : Cursor ε ℕ :=
  fun offset =>
    if offset ≤ bytes.length then some (.ok (bytes.length - offset, offset)) else none

/-- The bytes between two offsets. -/
def slice (bytes : List UInt8) (start stop : ℕ) : Cursor ε (List UInt8) :=
  fun offset =>
    if start ≤ stop ∧ stop ≤ bytes.length then
      some (.ok ((bytes.take stop).drop start, offset))
    else none

def times : ℕ → Cursor ε Unit → Cursor ε Unit
  | 0, _ => ret ()
  | n + 1, m => m.andThen fun _ => times n m

def each (items : List β) (m : β → Cursor ε Unit) : Cursor ε Unit :=
  match items with
  | [] => ret ()
  | item :: items => (m item).andThen fun _ => each items m

variable {m : Cursor ε α} {f : α → Cursor ε β} {offset stop : ℕ} {a : α} {b : β} {e : ε}

theorem bind_ok (h : m offset = some (.ok (a, stop))) : (m >>= f) offset = f a stop := by
  change andThen m f offset = f a stop
  rw [andThen, h]

theorem position_bind {f : ℕ → Cursor ε β} : (position >>= f) offset = f offset offset := rfl

theorem bind_error (h : m offset = some (.error e)) :
    (m >>= f) offset = some (.error e) := by
  change andThen m f offset = some (.error e)
  rw [andThen, h]

theorem bind_eq_ok (h : (m >>= f) offset = some (.ok (b, stop))) :
    ∃ a mid, m offset = some (.ok (a, mid)) ∧ f a mid = some (.ok (b, stop)) := by
  change andThen m f offset = some (.ok (b, stop)) at h
  rw [andThen] at h
  cases hm : m offset with
  | none =>
      rw [hm] at h
      contradiction
  | some result =>
      cases result with
      | error e =>
          rw [hm] at h
          exact absurd (Option.some.inj h) (by intro h; contradiction)
      | ok result =>
          rw [hm] at h
          exact ⟨result.1, result.2, rfl, h⟩

theorem bind_ne_none (hm : m offset ≠ none)
    (hf : ∀ a mid, m offset = some (.ok (a, mid)) → f a mid ≠ none) : (m >>= f) offset ≠ none := by
  change andThen m f offset ≠ none
  rw [andThen]
  cases h : m offset with
  | none => exact absurd h hm
  | some result =>
      cases result with
      | error e => exact Option.some_ne_none _
      | ok result => exact hf result.1 result.2 h

end Cursor

/-! ## Walks and the pieces they take in -/

section Scans

variable {ε α β : Type} {limit : ℕ} {P : List UInt8 → α → Prop} {Q : α → List UInt8 → β → Prop}
  {walk : List UInt8 → Cursor ε α} {next : α → List UInt8 → Cursor ε β}

/-- A walk never goes out of range and takes in exactly the pieces with `P`, with their values, in
byte strings up to a length. -/
structure Scans (limit : ℕ) (P : List UInt8 → α → Prop) (walk : List UInt8 → Cursor ε α) :
    Prop where
  safe : ∀ bytes offset, offset ≤ bytes.length → walk bytes offset ≠ none
  sound : ∀ {start tail a stop}, walk (start ++ tail) start.length = some (.ok (a, stop)) →
    ∃ piece rest, tail = piece ++ rest ∧ P piece a ∧ stop = start.length + piece.length
  complete : ∀ {start piece rest a}, P piece a → (start ++ piece ++ rest).length ≤ limit →
    walk (start ++ piece ++ rest) start.length = some (.ok (a, start.length + piece.length))

theorem Scans.congr {P' : List UInt8 → α → Prop} (h : Scans limit P walk)
    (hP : ∀ piece a, P piece a ↔ P' piece a) : Scans limit P' walk where
  safe := h.safe
  sound hwalk := by
    rcases h.sound hwalk with ⟨piece, rest, htail, hpiece, hstop⟩
    exact ⟨piece, rest, htail, (hP piece _).mp hpiece, hstop⟩
  complete hpiece hlimit := h.complete ((hP _ _).mpr hpiece) hlimit

/-- A walk stays inside the byte string. -/
theorem Scans.exists_piece (h : Scans limit P walk) {bytes : List UInt8} {offset stop : ℕ} {a : α}
    (hoffset : offset ≤ bytes.length) (hwalk : walk bytes offset = some (.ok (a, stop))) :
    ∃ piece, P piece a ∧ stop = offset + piece.length ∧ stop ≤ bytes.length := by
  have hlength : (bytes.take offset).length = offset := List.length_take_of_le hoffset
  have hsplit : walk (bytes.take offset ++ bytes.drop offset) (bytes.take offset).length =
      some (.ok (a, stop)) := by
    rw [List.take_append_drop, hlength, hwalk]
  rcases h.sound hsplit with ⟨piece, rest, htail, hpiece, hstop⟩
  have hdrop := congrArg List.length htail
  rw [List.length_drop, List.length_append] at hdrop
  rw [hlength] at hstop
  exact ⟨piece, hpiece, hstop, by omega⟩

theorem Scans.ret (a : α) :
    Scans (ε := ε) limit (fun piece b => piece = [] ∧ b = a) fun _ => Cursor.ret a where
  safe _ _ _ := Option.some_ne_none _
  sound {start tail b stop} hwalk := by
    rw [Cursor.ret, Option.some.injEq, Except.ok.injEq, Prod.mk.injEq] at hwalk
    exact ⟨[], tail, rfl, ⟨rfl, hwalk.1.symm⟩, hwalk.2.symm⟩
  complete {start piece rest b} hpiece _ := by
    rw [hpiece.1, hpiece.2]
    rfl

theorem Scans.bind (h : Scans limit P walk) (hnext : ∀ a, Scans limit (Q a) (next a)) :
    Scans limit (fun piece b => ∃ x y a, piece = x ++ y ∧ P x a ∧ Q a y b)
      fun bytes => walk bytes >>= fun a => next a bytes where
  safe bytes offset hoffset := by
    apply Cursor.bind_ne_none (h.safe bytes offset hoffset)
    intro a mid hwalk
    rcases h.exists_piece hoffset hwalk with ⟨piece, -, -, hmid⟩
    exact (hnext a).safe bytes mid hmid
  sound {start tail b stop} hwalk := by
    rcases Cursor.bind_eq_ok hwalk with ⟨a, mid, hfirst, hsecond⟩
    rcases h.sound hfirst with ⟨x, tail', rfl, hx, rfl⟩
    rw [← List.append_assoc, ← List.length_append] at hsecond
    rcases (hnext a).sound hsecond with ⟨y, rest, rfl, hy, rfl⟩
    refine ⟨x ++ y, rest, (List.append_assoc _ _ _).symm, ⟨x, y, a, rfl, hx, hy⟩, ?_⟩
    rw [List.length_append, List.length_append, Nat.add_assoc]
  complete {start piece rest b} hpiece hlimit := by
    rcases hpiece with ⟨x, y, a, rfl, hx, hy⟩
    have hbytes : start ++ (x ++ y) ++ rest = start ++ x ++ (y ++ rest) := by simp
    have hbytes' : start ++ (x ++ y) ++ rest = (start ++ x) ++ y ++ rest := by simp
    have hfirst : walk (start ++ (x ++ y) ++ rest) start.length =
        some (.ok (a, start.length + x.length)) := by
      rw [hbytes] at hlimit ⊢
      exact h.complete hx hlimit
    rw [Cursor.bind_ok hfirst]
    rw [hbytes'] at hlimit ⊢
    rw [← List.length_append, (hnext a).complete hy hlimit, List.length_append,
      List.length_append, Nat.add_assoc]

theorem Scans.fail (e : ε) : Scans limit (fun _ (_ : α) => False) fun _ => Cursor.fail e where
  safe _ _ _ := Option.some_ne_none _
  sound hwalk := by
    rw [Cursor.fail, Option.some.injEq] at hwalk
    contradiction
  complete hpiece := hpiece.elim

/-- A walk that depends on a condition. -/
theorem Scans.ite {P' : List UInt8 → α → Prop} {walk' : List UInt8 → Cursor ε α} (c : Prop)
    [Decidable c] (h : Scans limit P walk) (h' : Scans limit P' walk') :
    Scans limit (fun piece a => if c then P piece a else P' piece a)
      fun bytes => if c then walk bytes else walk' bytes := by
  by_cases hc : c
  · simp only [if_pos hc]
    exact h
  · simp only [if_neg hc]
    exact h'

/-- A walk repeated. -/
theorem Scans.times {P : List UInt8 → Unit → Prop} {walk : List UInt8 → Cursor ε Unit}
    (h : Scans limit P walk) (n : ℕ) :
    Scans limit (fun piece _ => ∃ pieces : List (List UInt8), pieces.length = n ∧
      piece = pieces.flatten ∧ ∀ p ∈ pieces, P p ()) fun bytes => (walk bytes).times n := by
  induction n with
  | zero =>
      apply (Scans.ret ()).congr
      intro piece a
      constructor
      · intro hpiece
        exact ⟨[], rfl, hpiece.1, by simp⟩
      · intro hpiece
        rcases hpiece with ⟨pieces, hlength, hpiece, -⟩
        rw [List.length_eq_zero_iff.mp hlength] at hpiece
        exact ⟨hpiece, rfl⟩
  | succ n ih =>
      apply (h.bind fun _ => ih).congr
      intro piece a
      constructor
      · intro hpiece
        rcases hpiece with ⟨x, y, u, rfl, hx, pieces, hlength, rfl, hall⟩
        exact ⟨x :: pieces, by rw [List.length_cons, hlength], rfl,
          List.forall_mem_cons.mpr ⟨hx, hall⟩⟩
      · intro hpiece
        rcases hpiece with ⟨pieces, hlength, rfl, hall⟩
        cases pieces with
        | nil => contradiction
        | cons x pieces =>
            refine ⟨x, pieces.flatten, (), rfl, hall x List.mem_cons_self, pieces,
              Nat.succ.inj hlength, rfl, fun p hp => hall p (List.mem_cons_of_mem _ hp)⟩

/-- A walk for each item of a list. -/
theorem Scans.each {items : List β} {P : β → List UInt8 → Prop}
    {walk : β → List UInt8 → Cursor ε Unit}
    (h : ∀ item ∈ items, Scans limit (fun piece _ => P item piece) (walk item)) :
    Scans limit (fun piece _ => ∃ pieces, piece = pieces.flatten ∧ List.Forall₂ P items pieces)
      fun bytes => Cursor.each items fun item => walk item bytes := by
  induction items with
  | nil =>
      apply (Scans.ret ()).congr
      intro piece a
      constructor
      · intro hpiece
        exact ⟨[], hpiece.1, .nil⟩
      · intro hpiece
        rcases hpiece with ⟨pieces, hpiece, hall⟩
        rw [List.forall₂_nil_left_iff.mp hall] at hpiece
        exact ⟨hpiece, rfl⟩
  | cons item items ih =>
      apply ((h item List.mem_cons_self).bind fun _ =>
        ih fun other hother => h other (List.mem_cons_of_mem _ hother)).congr
      intro piece a
      constructor
      · intro hpiece
        rcases hpiece with ⟨x, y, u, rfl, hx, pieces, rfl, hall⟩
        exact ⟨x :: pieces, rfl, .cons hx hall⟩
      · intro hpiece
        rcases hpiece with ⟨pieces, rfl, hall⟩
        rcases List.forall₂_cons_left_iff.mp hall with ⟨x, others, hx, hothers, rfl⟩
        exact ⟨x, others.flatten, (), rfl, hx, others, rfl, hothers⟩

/-- A look at the number in front of a walk. -/
theorem Scans.peek {n : ℕ} {g : List UInt8 → β} {look : List UInt8 → Cursor ε β} {c : β → Prop}
    [DecidablePred c] {e : ε}
    (hlook : Scans limit (fun piece b => piece.length = n ∧ b = g piece) look)
    (h : Scans limit P walk) (hlong : ∀ piece a, P piece a → n ≤ piece.length) :
    Scans limit (fun piece a => P piece a ∧ c (g (piece.take n)))
      fun bytes => (look bytes).peek >>= fun b => if c b then walk bytes else Cursor.fail e where
  safe bytes offset hoffset := by
    apply Cursor.bind_ne_none
    · rw [Cursor.peek]
      cases hlooked : look bytes offset with
      | none => exact absurd hlooked (hlook.safe bytes offset hoffset)
      | some result => cases result <;> exact Option.some_ne_none _
    · intro b mid hpeek
      have hmid : mid = offset := by
        rw [Cursor.peek] at hpeek
        cases hlooked : look bytes offset with
        | none =>
            rw [hlooked] at hpeek
            contradiction
        | some result =>
            rw [hlooked] at hpeek
            cases result with
            | error e => exact absurd (Option.some.inj hpeek) (by intro h; contradiction)
            | ok result => exact (Prod.mk.inj (Except.ok.inj (Option.some.inj hpeek))).2.symm
      rw [hmid]
      by_cases hc : c b
      · rw [if_pos hc]
        exact h.safe bytes offset hoffset
      · rw [if_neg hc]
        exact Option.some_ne_none _
  sound {start tail a stop} hwalk := by
    rcases Cursor.bind_eq_ok hwalk with ⟨b, mid, hpeek, hnext⟩
    rw [Cursor.peek] at hpeek
    cases hlooked : look (start ++ tail) start.length with
    | none =>
        rw [hlooked] at hpeek
        contradiction
    | some result =>
        rw [hlooked] at hpeek
        cases result with
        | error e => exact absurd (Option.some.inj hpeek) (by intro h; contradiction)
        | ok result =>
            have hlooked' := Prod.mk.inj (Except.ok.inj (Option.some.inj hpeek))
            by_cases hc : c b
            · rw [if_pos hc, ← hlooked'.2] at hnext
              rcases h.sound hnext with ⟨piece, rest, htail, hpiece, hstop⟩
              rcases hlook.sound hlooked with ⟨front, rest', htail', hfront, -⟩
              refine ⟨piece, rest, htail, ⟨hpiece, ?_⟩, hstop⟩
              have htake : piece.take n = front := by
                calc
                  piece.take n = (piece ++ rest).take n :=
                    (List.take_append_of_le_length (hlong piece a hpiece)).symm
                  _ = (front ++ rest').take front.length := by rw [← htail, htail', hfront.1]
                  _ = front := List.take_left
              rwa [htake, ← hfront.2, hlooked'.1]
            · rw [if_neg hc] at hnext
              exact absurd (Option.some.inj hnext) (by intro h; contradiction)
  complete {start piece rest a} hpiece hlimit := by
    have hlength := hlong piece a hpiece.1
    have hbytes : start ++ piece ++ rest = start ++ piece.take n ++ (piece.drop n ++ rest) := by
      rw [List.append_assoc, List.append_assoc, ← List.append_assoc (piece.take n),
        List.take_append_drop]
    have hlooked : look (start ++ piece ++ rest) start.length =
        some (.ok (g (piece.take n), start.length + (piece.take n).length)) := by
      rw [hbytes] at hlimit ⊢
      exact hlook.complete ⟨List.length_take_of_le hlength, rfl⟩ hlimit
    have hpeek : (look (start ++ piece ++ rest)).peek start.length =
        some (.ok (g (piece.take n), start.length)) := by
      rw [Cursor.peek, hlooked]
    rw [Cursor.bind_ok hpeek, if_pos hpiece.2]
    exact h.complete hpiece.1 hlimit

/-- A count of items that the rest of the bytes has room for. -/
theorem Scans.within {count size : ℕ} {e : ε} (hsize : 0 < size) (h : Scans limit P walk)
    (hlong : ∀ piece a, P piece a → count * size ≤ piece.length) :
    Scans limit P fun bytes => Cursor.remaining bytes >>= fun left =>
      if left / size < count then Cursor.fail e else walk bytes where
  safe bytes offset hoffset := by
    have hleft : Cursor.remaining (ε := ε) bytes offset =
        some (.ok (bytes.length - offset, offset)) := if_pos hoffset
    rw [Cursor.bind_ok hleft]
    by_cases hcount : (bytes.length - offset) / size < count
    · rw [if_pos hcount]
      exact Option.some_ne_none _
    · rw [if_neg hcount]
      exact h.safe bytes offset hoffset
  sound {start tail a stop} hwalk := by
    have hleft : Cursor.remaining (ε := ε) (start ++ tail) start.length =
        some (.ok ((start ++ tail).length - start.length, start.length)) :=
      if_pos (by rw [List.length_append]; exact Nat.le_add_right _ _)
    rw [Cursor.bind_ok hleft] at hwalk
    by_cases hcount : ((start ++ tail).length - start.length) / size < count
    · rw [if_pos hcount] at hwalk
      exact absurd (Option.some.inj hwalk) (by intro h; contradiction)
    · rw [if_neg hcount] at hwalk
      exact h.sound hwalk
  complete {start piece rest a} hpiece hlimit := by
    have hleft : Cursor.remaining (ε := ε) (start ++ piece ++ rest) start.length =
        some (.ok ((start ++ piece ++ rest).length - start.length, start.length)) :=
      if_pos (by simp)
    have hroom : ¬((start ++ piece ++ rest).length - start.length) / size < count := by
      have hlength := hlong piece a hpiece
      rw [Nat.not_lt, Nat.le_div_iff_mul_le hsize]
      simp only [List.length_append]
      omega
    rw [Cursor.bind_ok hleft, if_neg hroom]
    exact h.complete hpiece hlimit

end Scans

end ObsidianMcp
