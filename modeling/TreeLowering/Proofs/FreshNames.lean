import Mathlib.Data.List.DropRight
import Mathlib.Data.List.Nodup
import TreeLowering.Proofs.Encoding
import TreeLowering.Proofs.Issued

namespace TreeLowering.NameSupply

-- Read from behind, a name begins with its number, up to an underscore.
theorem numbered_digits (hint : String) (n : Nat) :
    (numbered hint n).toList.reverse.takeWhile Char.isDigit = (Decimal.digits n).reverse := by
  have spelled : (numbered hint n).toList.reverse = (Decimal.digits n).reverse ++ '_' :: hint.toList.reverse := by
    simp [numbered, Decimal.digits]
  have digits : ∀ c ∈ (Decimal.digits n).reverse, c.isDigit = true := fun c member =>
    Decimal.digits_isDigit (List.mem_reverse.mp member)
  have mark : ('_' :: hint.toList.reverse).takeWhile Char.isDigit = [] := List.takeWhile_cons_of_neg (by decide)
  rw [spelled, List.takeWhile_append_of_pos digits, mark, List.append_nil]

-- A hint may itself look like a name, and still no two of them have a name in common.
theorem numbered_inj {hint other : String} {n m : Nat} (same : numbered hint n = numbered other m) :
    hint = other ∧ n = m := by
  have digits : Decimal.digits n = Decimal.digits m := by
    have behind := numbered_digits hint n
    rw [same, numbered_digits other m] at behind
    exact (List.reverse_injective behind).symm
  have numbers : n = m := by rw [← Decimal.ofDigits_digits n, digits, Decimal.ofDigits_digits]
  subst numbers
  have hints : hint ++ "_" = other ++ "_" := (String.append_left_inj _).mp same
  exact ⟨(String.append_left_inj _).mp hints, rfl⟩

inductive Request where
  | fresh (hint : String)
  | reset

def Request.hint? : Request → Option String
  | fresh hint => some hint
  | reset => none

def asked (requests : List Request) : List String :=
  (requests.rtakeWhile fun request => request.hint?.isSome).filterMap Request.hint?

theorem asked_fresh (requests : List Request) (hint : String) :
    asked (requests ++ [.fresh hint]) = asked requests ++ [hint] := by
  rw [asked, List.rtakeWhile_concat_pos _ _ _ rfl, List.filterMap_append]
  rfl

theorem asked_reset (requests : List Request) : asked (requests ++ [.reset]) = [] := by
  rw [asked, List.rtakeWhile_concat_neg _ _ _ Bool.false_ne_true]
  rfl

-- A supply in use: what it is now, and the names that it gave since the last reset, each with its hint.
structure Session where
  supply : NameSupply
  given : List (String × String)

namespace Session

def start : Session := ⟨initial, []⟩

def serve (s : Session) : Request → Session
  | .fresh hint => ⟨(s.supply.fresh hint).2, s.given ++ [(hint, (s.supply.fresh hint).1)]⟩
  | .reset => ⟨s.supply.reset, []⟩

def serveAll (requests : List Request) : Session := requests.foldl serve start

-- What every request keeps. A name that was given has a number below the counter of its hint, so the next name of
-- that hint is another one.
structure Sound (s : Session) (hints : List String) : Prop where
  order : s.given.map Prod.fst = hints
  counted (hint : String) : s.supply.issued hint = hints.count hint
  below : ∀ p ∈ s.given, ∃ n < s.supply.issued p.1, p.2 = numbered p.1 n
  distinct : (s.given.map Prod.snd).Nodup
  valid : ∀ p ∈ s.given, Text.isIdentifier p.1 = true → Text.isIdentifier p.2 = true

variable {s : Session} {hints : List String}

theorem empty_sound : Sound ⟨initial, []⟩ [] where
  order := rfl
  counted := issued_initial
  below := List.forall_mem_nil _
  distinct := List.nodup_nil
  valid := List.forall_mem_nil _

-- The next name has the number that the counter stands at, which none of those before has.
theorem Sound.apart (sound : s.Sound hints) (hint : String) : (s.supply.fresh hint).1 ∉ s.given.map Prod.snd := by
  intro repeated
  obtain ⟨p, member, same⟩ := List.mem_map.mp repeated
  obtain ⟨n, below, named⟩ := sound.below p member
  rw [named, fresh_numbered] at same
  obtain ⟨hints, numbers⟩ := numbered_inj same
  rw [hints, numbers] at below
  exact Nat.lt_irrefl _ below

theorem Sound.fresh (sound : s.Sound hints) (hint : String) : (s.serve (.fresh hint)).Sound (hints ++ [hint]) where
  order := by rw [serve, List.map_append, sound.order, List.map_singleton]
  counted other := by
    change (s.supply.fresh hint).2.issued other = _
    rw [issued_fresh, List.count_append, sound.counted]
  below p member := by
    change ∃ n < (s.supply.fresh hint).2.issued p.1, _
    rw [issued_fresh]
    rcases List.mem_append.mp member with before | last
    · obtain ⟨n, below, named⟩ := sound.below p before
      exact ⟨n, Nat.lt_add_right _ below, named⟩
    · cases List.mem_singleton.mp last
      exact ⟨s.supply.issued hint, by simp, fresh_numbered s.supply hint⟩
  distinct := by
    rw [serve, List.map_append, List.map_singleton]
    exact List.nodup_append_comm.mp (List.nodup_cons.mpr ⟨sound.apart hint, sound.distinct⟩)
  valid p member valid := by
    rcases List.mem_append.mp member with before | last
    · exact sound.valid p before valid
    · cases List.mem_singleton.mp last
      exact fresh_valid valid s.supply

theorem serveAll_sound (requests : List Request) : (serveAll requests).Sound (asked requests) := by
  induction requests using List.reverseRecOn with
  | nil => exact empty_sound
  | append_singleton requests request ih =>
    rw [serveAll, List.foldl_concat]
    cases request with
    | fresh hint => exact asked_fresh requests hint ▸ ih.fresh hint
    | reset => exact asked_reset requests ▸ empty_sound

end Session

-- Whatever was asked of a supply: the names since the last reset are different, across hints that look like names
-- of each other too, each counter says how often its hint was asked for, and identifiers give identifiers.
theorem fresh_unrepeated (requests : List Request) :
    (Session.serveAll requests).given.map Prod.fst = asked requests ∧
    ((Session.serveAll requests).given.map Prod.snd).Nodup ∧
    (∀ hint, (Session.serveAll requests).supply.issued hint = (asked requests).count hint) ∧
    ∀ hint name, (hint, name) ∈ (Session.serveAll requests).given →
      Text.isIdentifier hint = true → Text.isIdentifier name = true := by
  have sound := Session.serveAll_sound requests
  exact ⟨sound.order, sound.distinct, sound.counted, fun hint name member => sound.valid (hint, name) member⟩

def alike : List Request := [.fresh "a_0", .reset, .fresh "a", .fresh "a_0", .fresh "a", .fresh "a_"]

theorem alike_unrepeated :
    ((Session.serveAll alike).given.map Prod.snd).Nodup ∧ (Session.serveAll alike).supply.issued "a" = 2 ∧
    ("a_0", "a_0_0") ∈ (Session.serveAll alike).given ∧ Text.isIdentifier "a_0" = true ∧
    Text.isIdentifier "a_0_0" = true := by
  obtain ⟨-, distinct, counted, valid⟩ := fresh_unrepeated alike
  have given : ("a_0", "a_0_0") ∈ (Session.serveAll alike).given := by decide
  have hint : Text.isIdentifier "a_0" = true := by decide
  have twice : (Session.serveAll alike).supply.issued "a" = 2 := (counted "a").trans (by decide)
  exact ⟨distinct, twice, given, hint, valid _ _ given hint⟩

end TreeLowering.NameSupply
