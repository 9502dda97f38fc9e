import RegexAudit.CharSet.Properties
import RegexAudit.Unicode.Property

/-!
# Known properties

The sets of the properties in the tables of `Unicode.Property`. These are a part of what Unicode has;
the program takes any other property for unknown. Only what is said of fixed patterns depends on
which tables there are.
-/

namespace RegexAudit

instance : Properties where
  set? key value := (Unicode.property? key value).map CharSet.ofCodes

end RegexAudit
