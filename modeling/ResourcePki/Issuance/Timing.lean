import ResourcePki.Time.Basic

/-! How long certificates of children are valid, and when they are renewed. -/

namespace ResourcePki

structure IssuanceTiming where
  /-- Weeks for which a new certificate is valid. -/
  validWeeks : Int := 52
  /-- Weeks before its end in which a certificate is renewed. -/
  reissueWeeks : Int := 4
deriving DecidableEq, Repr

namespace IssuanceTiming

/-- New certificates are valid from five minutes ago, as clocks may differ. -/
def newValidity (timing : IssuanceTiming) (now : Time) : Validity :=
  ⟨now.addMinutes (-5), now.addWeeks timing.validWeeks⟩

/-- Certificates that end before this are renewed. -/
def reissueThreshold (timing : IssuanceTiming) (now : Time) : Time :=
  now.addWeeks timing.reissueWeeks

end IssuanceTiming

end ResourcePki
