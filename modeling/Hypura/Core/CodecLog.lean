import Hypura.Core.Codec

/-!
# Hypura.Core.CodecLog

What a byte reader writes to its log, as a condition on the bytes.

`Respects P N p C`: on at most `N` bytes, the events that `p` logs all satisfy `P`
exactly when the bytes satisfy `C`. A reader that stops half-way has logged what it
logged before, so `C` speaks of every prefix of the bytes that can be read, not only of
inputs that are read to the end. The rule for sequencing needs to know exactly which
prefixes the first reader accepts (`Decodes`).
-/

namespace Hypura.Core

section CodecLog
variable {η ε α β γ : Type}

/-- The cursor a run leaves, whether it succeeds or fails. -/
def after : EStateM.Result ε (Cursor η) α → Cursor η
  | .ok _ c => c
  | .error _ c => c

def Respects (P : η → Prop) (N : Nat) (p : Reader η ε α) (C : List UInt8 → Prop) : Prop :=
  ∀ c, c.rest.length ≤ N → ((∀ e ∈ (after (p c)).events, P e) ↔ (∀ e ∈ c.events, P e) ∧ C c.rest)

/-- After fewer than `n` whole items, the bytes that follow satisfy `C`. -/
def ItemsRespect (Q : β → Prop) (enc : β → List UInt8) (C : List UInt8 → Prop) (n : Nat)
    (rest : List UInt8) : Prop :=
  ∀ (done : List β) (rest' : List UInt8), done.length < n → (∀ x ∈ done, Q x) →
    rest = done.flatMap enc ++ rest' → C rest'

/-- On at most `N` bytes `p` accepts exactly what `G` relates to a result, and each
accepted prefix takes at least `k` bytes. -/
structure Decodes (N k : Nat) (p : Reader η ε α) (G : List UInt8 → α → Prop) : Prop where
  consumes : Consumes p G
  reads : ∀ b a, G b a → b.length ≤ N → Reads p b a
  length_le : ∀ b a, G b a → k ≤ b.length

/-- `p` logs nothing. -/
def Mute (p : Reader η ε α) : Prop := ∀ c, (after (p c)).events = c.events

variable {P : η → Prop} {N k : Nat} {p : Reader η ε α} {C : List UInt8 → Prop}

namespace Mute

theorem pure (a : α) : Mute (Pure.pure a : Reader η ε α) := fun _ => rfl

theorem throw (e : ε) : Mute (MonadExcept.throw e : Reader η ε α) := fun _ => rfl

theorem readExact (eof : ε) (n : Nat) : Mute (Core.readExact (η := η) eof n) := by
  intro c
  unfold Core.readExact
  split <;> rfl

theorem map (hp : Mute p) (f : α → β) : Mute (f <$> p) := by
  intro c
  change (after (EStateM.map f p c)).events = _
  rw [← hp c]
  unfold EStateM.map
  cases p c with
  | ok a c' => rfl
  | error e c' => rfl

theorem bind {f : α → Reader η ε β} (hp : Mute p) (hf : ∀ a, Mute (f a)) : Mute (p >>= f) := by
  intro c
  change (after (EStateM.bind p f c)).events = _
  unfold EStateM.bind
  have hpc := hp c
  cases h : p c with
  | ok a c' =>
      rw [h] at hpc
      exact (hf a c').trans hpc
  | error e c' =>
      rw [h] at hpc
      exact hpc

theorem scalar (s : Scalar α) (eof : ε) : Mute (s.read (η := η) eof) :=
  (readExact eof s.width).bind fun _ => pure _

theorem readMany (hp : Mute p) : ∀ n, Mute (Core.readMany p n)
  | 0 => pure []
  | n + 1 => hp.bind fun a => (readMany hp n).bind fun as => pure (a :: as)

/-- A mute reader respects everything. -/
theorem respects (hp : Mute p) (P : η → Prop) (N : Nat) : Respects P N p fun _ => True := by
  intro c _
  rw [hp c]
  simp

end Mute

namespace Respects

theorem congr {D : List UInt8 → Prop} (h : Respects P N p C)
    (hCD : ∀ rest, rest.length ≤ N → (C rest ↔ D rest)) : Respects P N p D := by
  intro c hc
  rw [h c hc, hCD c.rest hc]

theorem mono {N' : Nat} (h : Respects P N p C) (hN : N' ≤ N) : Respects P N' p C :=
  fun c hc => h c (hc.trans hN)

theorem logEvent (P : η → Prop) (N : Nat) (e : η) :
    Respects P N (Core.logEvent e : Reader η ε Unit) fun _ => P e := by
  intro c _
  change (∀ e' ∈ c.events ++ [e], P e') ↔ _
  simp [or_imp, forall_and]

/-- What follows the last event can be anything that logs nothing. -/
theorem bind_mute {f : α → Reader η ε β} (h : Respects P N p C) (hf : ∀ a, Mute (f a)) :
    Respects P N (p >>= f) C := by
  intro c hc
  rw [← h c hc]
  have hevents : (after ((p >>= f) c)).events = (after (p c)).events := by
    cases hrun : p c with
    | ok a c' =>
        rw [bind_eq_of_ok hrun]
        exact hf a c'
    | error e c' =>
        rw [bind_eq_of_error hrun]
        rfl
  rw [hevents]

theorem bind_pure (h : Respects P N p C) (f : α → β) :
    Respects P N (p >>= fun a => Pure.pure (f a)) C :=
  h.bind_mute fun a => .pure (f a)

theorem map (h : Respects P N p C) (f : α → β) : Respects P N (f <$> p) C := by
  rw [map_eq_pure_bind]
  exact h.bind_pure f

/-- A silent reader is followed by its continuation on the same bytes. -/
theorem silent_bind {f : α → Reader η ε β} {D : List UInt8 → Prop} {a : α}
    (hs : Silent p a) (hp : Respects P N p C) (hf : Respects P N (f a) D) :
    Respects P N (p >>= f) fun rest => C rest ∧ D rest := by
  intro c hc
  obtain ⟨log, hlog⟩ := hs c
  have hpc := hp c hc
  rw [hlog] at hpc
  rw [bind_eq_of_ok hlog, hf ⟨c.rest, c.pos, log⟩ hc, ← and_assoc]
  exact and_congr_left fun _ => hpc

theorem log_bind {f : Unit → Reader η ε β} {D : List UInt8 → Prop} (e : η)
    (hf : Respects P N (f ()) D) :
    Respects P N (Core.logEvent e >>= f) fun rest => P e ∧ D rest :=
  silent_bind (.logEvent e) (logEvent P N e) hf

/-- **Sequencing**: the first reader's bytes, and whatever can follow them. -/
theorem bind {f : α → Reader η ε β} {G : List UInt8 → α → Prop} {D : α → List UInt8 → Prop}
    (hd : Decodes N k p G) (hp : Respects P N p C)
    (hf : k ≤ N → ∀ a, Respects P (N - k) (f a) (D a)) :
    Respects P N (p >>= f) fun rest =>
      C rest ∧ ∀ b a rest', rest = b ++ rest' → G b a → D a rest' := by
  intro c hc
  have hpc := hp c hc
  cases h : p c with
  | ok a c' =>
      obtain ⟨b, hb, -, hG⟩ := hd.consumes c a c' h
      have hblen := hd.length_le b a hG
      have hlen : c.rest.length = b.length + c'.rest.length := by rw [hb, List.length_append]
      rw [h] at hpc
      have hrest := hf (by omega) a c' (by omega)
      -- the bytes read, and so the result, are the only ones possible
      have hD : (∀ b₁ a₁ rest', c.rest = b₁ ++ rest' → G b₁ a₁ → D a₁ rest') ↔ D a c'.rest := by
        constructor
        · exact fun hall => hall b a c'.rest hb hG
        · intro hDa b₁ a₁ rest' hb₁ hG₁
          have hlen₁ : b₁.length ≤ N := by
            have := congrArg List.length hb₁
            rw [List.length_append] at this
            omega
          obtain ⟨log, hrun⟩ := hd.reads b₁ a₁ hG₁ hlen₁ rest' c.pos c.events
          rw [← hb₁] at hrun
          change p c = _ at hrun
          rw [h] at hrun
          cases hrun
          exact hDa
      rw [bind_eq_of_ok h, hrest]
      show _ ↔ _ ∧ C c.rest ∧ _
      rw [hD, ← and_assoc]
      exact and_congr_left fun _ => hpc
  | error e c' =>
      rw [h] at hpc
      rw [bind_eq_of_error h]
      change (∀ e' ∈ c'.events, P e') ↔ _
      refine hpc.trans (and_congr_right fun _ => ⟨fun hC => ⟨hC, ?_⟩, And.left⟩)
      intro b a rest' hb hG
      have hlen : b.length ≤ N := by
        have := congrArg List.length hb
        rw [List.length_append] at this
        omega
      obtain ⟨log, hrun⟩ := hd.reads b a hG hlen rest' c.pos c.events
      rw [← hb] at hrun
      change p c = _ at hrun
      rw [h] at hrun
      cases hrun

/-- Sequencing after a reader of encodings. -/
theorem bind_encoding {f : α → Reader η ε γ} {Q : β → Prop} {enc : β → List UInt8} {val : β → α}
    {D : α → List UInt8 → Prop} (hd : Decodes N k p (EncodingOf Q enc val)) (hp : Respects P N p C)
    (hf : k ≤ N → ∀ a, Respects P (N - k) (f a) (D a)) :
    Respects P N (p >>= f) fun rest =>
      C rest ∧ ∀ x rest', Q x → rest = enc x ++ rest' → D (val x) rest' := by
  refine (bind hd hp hf).congr fun rest _ => and_congr_right fun _ => ?_
  constructor
  · exact fun h x rest' hx heq => h (enc x) (val x) rest' heq ⟨x, hx, rfl, rfl⟩
  · intro h b a rest' heq hG
    obtain ⟨x, hx, rfl, rfl⟩ := hG
    exact h x rest' hx heq

/-- A repeated reader asks the condition before every item. -/
theorem readMany {Q : β → Prop} {enc : β → List UInt8} {val : β → α}
    (hd : Decodes N 0 p (EncodingOf Q enc val)) (hp : Respects P N p C) :
    ∀ n, Respects P N (Core.readMany p n) (ItemsRespect Q enc C n)
  | 0 => by
      refine ((Mute.pure []).respects P N).congr fun rest _ => ?_
      simp [ItemsRespect]
  | n + 1 => by
      refine (bind (D := fun _ => ItemsRespect Q enc C n) hd hp fun _ a => ?_).congr
        fun rest _ => ?_
      · exact (readMany hd hp n).bind_pure _
      · constructor
        · intro ⟨hfirst, hlater⟩ done rest' hlen hdone heq
          cases done with
          | nil =>
              rw [List.flatMap_nil, List.nil_append] at heq
              exact heq ▸ hfirst
          | cons x done =>
              rw [List.flatMap_cons, List.append_assoc] at heq
              exact hlater (enc x) (val x) _ heq ⟨x, hdone x List.mem_cons_self, rfl, rfl⟩ done rest'
                (by simpa using hlen) (fun y hy => hdone y (List.mem_cons_of_mem _ hy)) rfl
        · intro hall
          refine ⟨hall [] rest (by simp) (by simp) rfl, ?_⟩
          intro b a rest' heq hG done rest'' hlen hdone heq'
          obtain ⟨x, hx, rfl, rfl⟩ := hG
          refine hall (x :: done) rest'' (by simpa using hlen) ?_ ?_
          · exact List.forall_mem_cons.mpr ⟨hx, hdone⟩
          · rw [heq, heq', List.flatMap_cons, List.append_assoc]

end Respects

/-! ### Decoders -/

namespace Decodes

theorem scalar (s : Scalar α) (eof : ε) (N : Nat) :
    Decodes N s.width (s.read (η := η) eof) (EncodingOf (fun _ => True) s.encode id) where
  consumes := s.consumes eof
  reads b a hG _ := by
    obtain ⟨x, -, rfl, ha⟩ := hG
    exact ha ▸ s.reads eof x
  length_le b a hG := by
    obtain ⟨x, -, rfl, -⟩ := hG
    exact (s.encode_length x).ge

theorem mono {N' k' : Nat} {G : List UInt8 → α → Prop} (h : Decodes N k p G) (hN : N' ≤ N)
    (hk : k' ≤ k) : Decodes N' k' p G where
  consumes := h.consumes
  reads b a hG hlen := h.reads b a hG (hlen.trans hN)
  length_le b a hG := hk.trans (h.length_le b a hG)

/-- A repeated decoder decodes lists. -/
theorem readMany {Q : β → Prop} {enc : β → List UInt8} {val : β → α}
    (h : Decodes N k p (EncodingOf Q enc val)) (n : Nat) :
    Decodes N 0 (Core.readMany p n)
      (EncodingOf (fun xs : List β => xs.length = n ∧ ∀ x ∈ xs, Q x) (List.flatMap enc) (List.map val)) where
  consumes := readMany_consumes h.consumes n
  reads b a hG hlen := by
    obtain ⟨xs, ⟨rfl, hxs⟩, rfl, rfl⟩ := hG
    refine Reads.readMany fun x hx => h.reads _ _ ⟨x, hxs x hx, rfl, rfl⟩ ?_
    have hle : (enc x).length ≤ (xs.map fun x => (enc x).length).sum :=
      List.le_sum_of_mem (List.mem_map_of_mem hx)
    rw [List.length_flatMap] at hlen
    exact hle.trans hlen
  length_le _ _ _ := Nat.zero_le _

end Decodes

/-- Sequencing after a fixed-width integer. -/
theorem Respects.scalar_bind (s : Scalar α) (eof : ε) {f : α → Reader η ε β}
    {D : α → List UInt8 → Prop}
    (hf : s.width ≤ N → ∀ a, Respects P (N - s.width) (f a) (D a)) :
    Respects P N (s.read eof >>= f) fun rest =>
      ∀ a rest', rest = s.encode a ++ rest' → D a rest' := by
  refine (bind_encoding (.scalar s eof N) ((Mute.scalar s eof).respects P N) hf).congr fun _ _ => ?_
  simp

/-! ### Readers that agree on short inputs -/

/-- `p` and `q` do the same on at most `N` bytes. -/
def AgreeOn (N : Nat) (p q : Reader η ε α) : Prop := ∀ c, c.rest.length ≤ N → p c = q c

namespace AgreeOn
variable {q : Reader η ε α} {G : List UInt8 → α → Prop}

theorem refl (N : Nat) (p : Reader η ε α) : AgreeOn N p p := fun _ _ => rfl

theorem bind {f g : α → Reader η ε β} (h : AgreeOn N p q) (hp : Consumes p G)
    (hk : ∀ b a, G b a → k ≤ b.length) (hfg : k ≤ N → ∀ a, AgreeOn (N - k) (f a) (g a)) :
    AgreeOn N (p >>= f) (q >>= g) := by
  intro c hc
  have hpq := h c hc
  cases hrun : p c with
  | ok a c' =>
      obtain ⟨b, hb, -, hG⟩ := hp c a c' hrun
      have hblen := hk b a hG
      have hlen : c.rest.length = b.length + c'.rest.length := by rw [hb, List.length_append]
      rw [bind_eq_of_ok hrun, bind_eq_of_ok (hpq ▸ hrun)]
      exact hfg (by omega) a c' (by omega)
  | error e c' =>
      rw [bind_eq_of_error hrun, bind_eq_of_error (hpq ▸ hrun)]

theorem map (h : AgreeOn N p q) (f : α → β) : AgreeOn N (f <$> p) (f <$> q) := by
  intro c hc
  show EStateM.map f p c = EStateM.map f q c
  unfold EStateM.map
  rw [h c hc]

theorem bind_pure (h : AgreeOn N p q) (f : α → β) :
    AgreeOn N (p >>= fun a => pure (f a)) (q >>= fun a => pure (f a)) := by
  rw [← map_eq_pure_bind, ← map_eq_pure_bind]
  exact h.map f

theorem readMany (h : AgreeOn N p q) (hp : Consumes p G) :
    ∀ n, AgreeOn N (Core.readMany p n) (Core.readMany q n)
  | 0 => refl N _
  | n + 1 => by
      refine bind (k := 0) h hp (fun _ _ _ => Nat.zero_le _) fun _ a => ?_
      exact (readMany h hp n).bind_pure _

theorem scalar_bind (s : Scalar α) (eof : ε) {f g : α → Reader η ε β}
    (hfg : s.width ≤ N → ∀ a, AgreeOn (N - s.width) (f a) (g a)) :
    AgreeOn N (s.read eof >>= f) (s.read eof >>= g) :=
  have hd := Decodes.scalar (η := η) s eof N
  bind (refl N _) hd.consumes hd.length_le hfg

theorem log_bind (e : η) {f g : Unit → Reader η ε β} (hfg : AgreeOn N (f ()) (g ())) :
    AgreeOn N (Core.logEvent e >>= f) (Core.logEvent e >>= g) :=
  fun c hc => hfg ⟨c.rest, c.pos, c.events ++ [e]⟩ hc

end AgreeOn

end CodecLog

end Hypura.Core
