import SqlLayout.Registry
import SqlLayout.Text.Case

/-! The registries that are always at hand: the vocabulary of PostgreSQL, which every dialect
contains, and that of its spatial extension. -/

namespace SqlLayout.Registry
set_option autoImplicit false

def postgres : Registry where
  name := "postgresql"
  operators := [
    "+", "-", "*", "/", "%", "^", "=", "<>", "!=", "<", ">", "<=", ">=", "||", "::", ":=", "=>",
    "@>", "<@", "->", "->>", "#>", "#>>", "#-", "&&", "@", "!", "!!", "~", "~*", "!~", "!~*",
    "~~", "~~*", "!~~", "!~~*", "|/", "||/", "<<", ">>", "&", "|", "#", "?", "?|", "?&", "-|-",
    "@@", "@@@", "<->", "&<", "&>", "<<|", "|>>", "&<|", "|&>", "<^", ">^", "?#", "?-", "?-|",
    "?||", "~=", "<<=", ">>="]
  types := [
    "BIGINT", "BIGSERIAL", "BIT", "BOOL", "BOOLEAN", "BOX", "BYTEA", "CHAR", "CHARACTER", "CIDR",
    "CIRCLE", "DATE", "DEC", "DECIMAL", "FLOAT", "FLOAT4", "FLOAT8", "INET", "INT", "INT2",
    "INT4", "INT8", "INTEGER", "INTERVAL", "JSON", "JSONB", "LINE", "LSEG", "MACADDR", "MONEY",
    "NUMERIC", "PATH", "POINT", "POLYGON", "REAL", "SECOND", "SERIAL", "SMALLINT", "SMALLSERIAL",
    "TEXT", "TIMESTAMP", "TIMESTAMPTZ", "TIMETZ", "TSQUERY", "TSVECTOR", "UUID", "VARBIT",
    "VARCHAR", "XML"]
  functions := [
    "ABS", "ARRAY_AGG", "AVG", "CAST", "CEIL", "COALESCE", "CONCAT", "COUNT", "DATE_PART",
    "DATE_TRUNC", "DENSE_RANK", "EXTRACT", "FIRST_VALUE", "FLOOR", "GENERATE_SERIES", "GREATEST",
    "JSON_AGG", "JSONB_AGG", "JSONB_BUILD_OBJECT", "JSON_BUILD_OBJECT", "LAG", "LAST_VALUE",
    "LEAD", "LEAST", "LENGTH", "LOWER", "MAX", "MIN", "NOW", "NULLIF", "OVER", "OVERLAY",
    "PERCENTILE_CONT", "PERCENTILE_DISC", "POSITION", "RANDOM", "RANK", "REPLACE", "ROUND",
    "ROW_NUMBER", "SPLIT_PART", "STRING_AGG", "SUBSTRING", "SUM", "TO_CHAR", "TO_DATE",
    "TO_TIMESTAMP", "TRIM", "UNNEST", "UPPER", "XMLCONCAT", "XMLELEMENT", "XMLFOREST"]
  reservedValues := [
    "TRUE", "FALSE", "INFINITY", "NAN", "CURRENT_DATE", "CURRENT_TIME", "CURRENT_TIMESTAMP",
    "CURRENT_USER", "LOCALTIME", "LOCALTIMESTAMP", "SESSION_USER"]
  literalPrefixes := ["B", "E", "N", "X", "U&"]

def postgis : Registry where
  name := "postgis"
  operators := ["&&&", "|=|", "<#>", "<<->>", "<<#>>", "~~="]
  types := ["GEOMETRY", "GEOGRAPHY", "BOX2D", "BOX3D"]
  functions := [
    "ST_Area", "ST_AsGeoJSON", "ST_AsText", "ST_Buffer", "ST_Centroid", "ST_Contains",
    "ST_DWithin", "ST_Distance", "ST_GeomFromText", "ST_Intersects", "ST_Length",
    "ST_MakeEnvelope", "ST_MakePoint", "ST_SetSRID", "ST_Transform", "ST_Within", "ST_X", "ST_Y"]

def ofName? (name : String) : Option Registry :=
  let lowered := Text.asciiLowerText name
  if lowered = "postgresql" || lowered = "postgres" then some postgres
  else if lowered = "postgis" then some postgis
  else none

end SqlLayout.Registry
