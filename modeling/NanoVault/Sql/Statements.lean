/-
The statements other than those on HFT tables as tokens, and the choice among all of them (`parse`
in `SQL_PARSER.hpp` and what it calls).

`parse` hands a statement to its handler or answers with a text of its own. Most branches catch
the exceptions of the parser and answer with their texts; those on HFT tables do not. What
follows the tokens a branch asks for is not looked at.
-/
import NanoVault.Lib.Parsing
import NanoVault.Sql.SelectList

namespace NanoVault.Sql

open Lib.Parsing NanoVault.Table NanoVault.Catalog NanoVault.Hft

inductive Statement where
  | createTable (name : Text) (columns : List ColumnDefinition)
  | createDatabase (name : Text)
  | statistics (type tableName colName : Text) (whereClause : Option Expression)
  | enableBatch (tableName : Text) (ticks : Option Int64)
  | listStrategy
  | applyWebsocket (strategyName url : Text)
  | insert (tableName : Text) (stmt : InsertStatement)
  | select (stmt : SelectStatement)
  | drop (istable : Bool) (name : Text)
  | use (name : Text)
  | delete (table : Text) (whereClause : Option Expression)
  | update (tableName : Text) (assignments : List (Text × Text)) (condition : Expression)
  | memorySet (key value : Text) (ttl : Int)
  | memoryGet (key : Text)
  | addHftStrategy (filePath : Text)
  | addHftIndicator (filePath : Text)
  | hft (stmt : HftStatement)

def typeToString : TokenType → String
  | .data => "data" | .feed => "feed" | .ohlc => "ohlc" | .live => "live" | .orders => "orders"
  | .binance => "binance" | .apiKey => "api_key" | .orderBook => "order_book" | .apply => "apply"
  | .double => "DOUBLE" | .ticks => "TICKS" | .precision => "PRECISION"
  | .tickSide => "TICK_SIDE" | .hft => "HFT" | .symbol => "SYMBOL" | .top => "TOP"
  | .add => "ADD" | .indicator => "indicator" | .file => "file" | .onT => "on"
  | .columnNo => "column_no" | .list => "list" | .strategy => "strategy" | .enable => "enable"
  | .batch => "batch" | .writing => "writing" | .statistics => "statistics"
  | .aggregates => "AGGREGATES" | .mean => "MEAN" | .meanN => "MEAN_N" | .max => "MAX"
  | .maxN => "MAX_N" | .min => "MIN" | .minN => "MIN_N" | .count => "COUNT"
  | .countN => "COUNT_N" | .stddev => "STDDEV" | .stddevN => "STDDEV_N" | .fetch => "fetch"
  | .websocket => "websocket" | .url => "url" | .select => "SELECT" | .fromT => "FROM"
  | .use => "USE" | .whereT => "WHERE" | .insert => "INSERT" | .into => "INTO" | .get => "GET"
  | .values => "VALUES" | .memory => "MEMORY" | .ttl => "TTL" | .create => "CREATE"
  | .table => "TABLE" | .delete => "DELETE" | .update => "UPDATE" | .set => "SET" | .and => "AND"
  | .or => "OR" | .not => "NOT" | .order => "ORDER" | .byT => "BY" | .drop => "DROP"
  | .database => "DATABASE" | .orderby => "ORDERBY" | .autoIncrement => "AUTO_INCREMENT"
  | .nullT => "NULL" | .unique => "UNIQUE" | .int => "INT" | .varchar => "VARCHAR"
  | .primary => "PRIMARY" | .key => "KEY" | .identifier => "IDENTIFIER" | .string => "STRING"
  | .number => "NUMBER" | .star => "STAR" | .plus => "PLUS" | .minus => "MINUS"
  | .multiply => "MULTIPLY" | .slash => "SLASH" | .percent => "PERCENT" | .equal => "EQUAL"
  | .greater => "GREATER" | .less => "LESS" | .greaterEqual => "GREATER_EQUAL"
  | .lessEqual => "LESS_EQUAL" | .notEqual => "NOT_EQUAL" | .doubleEqual => "DOUBLE_EQUAL"
  | .comma => "COMMA" | .semicolon => "SEMICOLON" | .dot => "DOT" | .openParen => "OPEN_PAREN"
  | .closeParen => "CLOSE_PAREN" | .endOfFile => "END_OF_FILE"

/-! ### Tokens -/

/-- `match(..) || match(..) || ..`, and `previous()`. -/
def oneOf (types : List TokenType) (otherwise : Fault) : TokenParser Token := do
  match ← get with
  | [] => throw otherwise
  | token :: tokens =>
      if token.type ∈ types then
        set tokens
        return token
      else throw otherwise

/-- `do { .. } while (match(TokenType::COMMA))`. -/
def commaSeparated {α : Type} (item : TokenParser α) : TokenParser (List α) := do
  separated item (accept .comma) ((← get).length + 1)

/-! ### INSERT, UPDATE and DELETE -/

def columnName : TokenParser Text := do
  let col ← expect .identifier "Expected column name"
  return col.value

def insertValue : TokenParser Text := do
  let token ← oneOf [.string, .number]
    (.runtimeError "Expected a STRING in quotes or a NUMBER".toList)
  return token.value

/-- `parseInsertStatement`, up to the check of the table. -/
def parseInsertStatement : TokenParser Statement := do
  let _ ← expect .insert "Expected 'INSERT'"
  let _ ← expect .into "Expected 'INTO'"
  let tableToken ← expect .identifier "Expected table name"
  let _ ← expect .openParen "Expected '(' before column list"
  let columns ← commaSeparated columnName
  let _ ← expect .closeParen "Expected ')' after column list"
  let _ ← expect .values "Expected 'VALUES'"
  let _ ← expect .openParen "Expected '(' before values"
  let values ← commaSeparated insertValue
  let _ ← expect .closeParen "Expected ')' after values"
  let _ ← expect .semicolon "Expected ';' at end"
  if columns.length ≠ values.length then
    throw (.runtimeError ("Number of columns and values do not match make " ++
      "sure you does not pass the primary key column").toList)
  else return .insert tableToken.value ⟨columns, values⟩

/-- An assignment of SET; a name may stand for its value. -/
def assignment : TokenParser (Text × Text) := do
  let column ← expect .identifier "Expected column name"
  let _ ← expect .equal "Expected '=' in SET clause"
  let value ← oneOf [.string, .number, .identifier]
    (.runtimeError "Invalid value in UPDATE SET clause".toList)
  return (column.value, value.value)

def parseUpdateStatement : TokenParser Statement := do
  let _ ← expect .update "Expected UPDATE keyword"
  let tableToken ← expect .identifier "Expected table name"
  let _ ← expect .set "Expected SET keyword"
  let assignments ← commaSeparated assignment
  match ← whereClause with
  | none => throw (.runtimeError "UPDATE without WHERE is not allowed".toList)
  | some condition =>
      let _ ← expect .semicolon "Expected ';' after UPDATE statement"
      return .update tableToken.value assignments condition

def parseDeleteStatement : TokenParser Statement := do
  let _ ← expect .delete "Expected DELETE keyword"
  let _ ← expect .fromT "Expected FROM keyword"
  let table ← expect .identifier "Expected table name"
  let condition ← whereClause
  let _ ← expect .semicolon "Expected ';' after DELETE statement"
  return .delete table.value condition

/-! ### STATISTICS -/

/-- The keywords of the statistics, and the types they stand for. -/
def statisticTypes : List (TokenType × String) :=
  [(.mean, "mean"), (.count, "count"), (.max, "max"), (.min, "min")]

def parseStatisticsStatement : TokenParser Statement := do
  let _ ← expect .statistics "Expected statistics keyword"
  let token ← oneOf (statisticTypes.map Prod.fst) (.runtimeError "Unexpected Keyword".toList)
  let type := ((statisticTypes.lookup token.type).getD "").toList
  let _ ← expect .fromT "Expected from keyword"
  let tableName ← expect .identifier "Expected table name"
  let _ ← expect .onT "Expected ON Keyword"
  let colName ← expect .identifier "Expected column name"
  let condition ← whereClause
  return .statistics type tableName.value colName.value condition

/-! ### CREATE, DROP and USE -/

/-- The next constraint of a column, if there is one. -/
def columnConstraint : TokenParser (Option ColumnConstraint) := do
  if ← accept .not then
    let _ ← expect .nullT "Expected NULL after NOT"
    return some .notNull
  else if ← accept .primary then
    let _ ← expect .key "Expected KEY after PRIMARY"
    return some .primaryKey
  else if ← accept .autoIncrement then return some .autoIncrement
  else if ← accept .unique then return some .unique
  else return none

/-- The loop over the constraints. Every round takes a token. -/
def columnConstraints : Nat → TokenParser (List ColumnConstraint)
  | 0 => return []
  | rounds + 1 => do
      match ← columnConstraint with
      | none => return []
      | some constraint => return constraint :: (← columnConstraints rounds)

/-- The type of a column, with the size of a VARCHAR if there is one. -/
def columnType : TokenParser Text := do
  let typeToken ← oneOf [.int, .varchar]
    (.runtimeError "Parse error: Expected column type (int or varchar)".toList)
  if typeToken.type = .varchar then
    if ← accept .openParen then
      let size ← expect .number "Expected size in VARCHAR()"
      let _ ← expect .closeParen "Expected ')' after VARCHAR size"
      return typeToken.value ++ '(' :: (size.value ++ [')'])
    else return typeToken.value
  else return typeToken.value

def tableColumn : TokenParser ColumnDefinition := do
  let colName ← expect .identifier "Expected column name"
  let type ← columnType
  let constraints ← columnConstraints ((← get).length + 1)
  return { name := colName.value, type := type, constraints := constraints }

/-- The loop over the columns. Every round takes a token. -/
def tableColumns : Nat → TokenParser (List ColumnDefinition)
  | 0 => return []
  | rounds + 1 => do
      if ← accept .closeParen then return []
      else
        let column ← tableColumn
        separator .undefined (.runtimeError "Expected ',' or ')' in column list".toList)
        return column :: (← tableColumns rounds)

def parseCreateStatement (currentDb : Option Text) : TokenParser Statement := do
  let _ ← expect .create "Expected CREATE keyword"
  if ← accept .table then
    if currentDb = none then
      throw (.runtimeError "No database selected. Use USE <db_name>;".toList)
    let tableName ← expect .identifier "Expected table name"
    let _ ← expect .openParen "Expected '(' after table name"
    let columns ← tableColumns ((← get).length + 1)
    return .createTable tableName.value columns
  else if ← accept .database then
    let name ← expect .identifier "Expected database name"
    return .createDatabase name.value
  else throw (.runtimeError "Expected TABLE or DATABASE keyword".toList)

def parseDropStatement (currentDb : Option Text) : TokenParser Statement := do
  let _ ← expect .drop "Expected drop keyword"
  if currentDb = none then
    throw (.runtimeError "No database selected. Use USE <db_name>;".toList)
  let token ← oneOf [.table, .database] (.runtimeError "error in drop ".toList)
  let identifier ← expect .identifier "not a identifier\n"
  return .drop (token.type = .table) identifier.value

/-- `parseUseStatement`, up to the check of the file. -/
def parseUseStatement : TokenParser Statement := do
  let _ ← expect .use "Expected USE keyword"
  let dbName ← expect .identifier "Expected database name after USE"
  let _ ← expect .semicolon "Expected ';' after USE statement"
  return .use dbName.value

/-! ### MEMORY -/

/-- What MEMORY has been given so far. -/
structure MemoryArguments where
  key : Text := []
  value : Text := []
  ttl : Int := -1

/-- The value of KEY or VALUES. -/
def memoryText (message missing : String) : TokenParser Text := do
  let _ ← expect .equal message
  let token ← oneOf [.identifier, .string, .number] (.runtimeError missing.toList)
  return token.value

/-- One argument of MEMORY. -/
def memoryArgument (args : MemoryArguments) : TokenParser MemoryArguments := do
  if ← accept .key then
    let key ← memoryText "Expected '=' after KEY" "Expected identifier or string after KEY="
    return { args with key := key }
  else if ← accept .values then
    let value ← memoryText "Expected '=' after VALUE" "Expected identifier or string after VALUE="
    return { args with value := value }
  else if ← accept .ttl then
    let _ ← expect .equal "Expected '=' after TTL"
    let num ← expect .number "Expected number after TTL="
    return { args with ttl := ← stoi num.value }
  else
    match ← get with
    | [] => throw .undefined
    | token :: _ =>
        throw (.runtimeError
          ("Unexpected token in MEMORY statement: ".toList ++ (typeToString token.type).toList))

/-- The loop over the arguments. Every round takes a token. -/
def memoryLoop : Nat → MemoryArguments → TokenParser MemoryArguments
  | 0, args => return args
  | rounds + 1, args => do
      if ← accept .semicolon then return args
      else memoryLoop rounds (← memoryArgument args)

def parseMemoryStatement : TokenParser Statement := do
  let _ ← expect .memory "Expected MEMORY keyword"
  let args ← memoryLoop ((← get).length + 1) {}
  if args.key = [] then throw (.runtimeError "MEMORY command missing KEY".toList)
  else if args.value = [] then throw (.runtimeError "MEMORY command missing VALUE".toList)
  else return .memorySet args.key args.value args.ttl

/-- `parseGetMemoryStatement`, which `parse` calls only in front of GET. -/
def parseGetMemoryStatement : TokenParser Statement := do
  let _ ← expect .memory "Expected MEMORY keyword"
  let _ ← expect .get ""
  let _ ← expect .key "Expected KEY after MEMORY GET"
  let key ← memoryText "Expected '=' after KEY" "Expected identifier/string/number after KEY="
  let _ ← expect .semicolon "Expected ';'"
  return .memoryGet key

/-! ### Batches, strategies and indicators -/

def parseEnableStatement : TokenParser Statement := do
  let _ ← expect .enable "expect token type enable"
  let _ ← expect .batch "expect token type batch"
  let _ ← expect .writing "expect token type writing"
  let _ ← expect .onT "expect token type on"
  let _ ← expect .table "expect token type table"
  let table ← expect .string "expect table name to be string"
  let _ ← expect .ticks "expect tokens ticks"
  let token ← expect .number "expect ticks to be a number"
  return .enableBatch table.value (fromChars token.value)

/-- `parseListStatement`; the list itself is not part of the statement. -/
def parseListStatement : TokenParser Statement := do
  let _ ← expect .list "expect key word list"
  if ← accept .strategy then
    let _ ← expect .semicolon "epect token type semi colon at end"
    return .listStrategy
  else
    throw (.runtimeError "error expect either strategy or TABLE TABLE_NAME with LIST".toList)

def parseWebSocketCommand : TokenParser Statement := do
  let _ ← expect .apply "expect token type Apply"
  let _ ← expect .websocket "expect token webscoket"
  let _ ← expect .onT "expect token type on"
  let _ ← expect .strategy "expect token type strategy "
  let strategyName ← expect .string "expect token type string "
  let _ ← expect .url "expect token type url"
  let websocketUrl ← expect .string "expect the websocket url to be string"
  return .applyWebsocket strategyName.value websocketUrl.value

def parseAddHftStrategyStatement : TokenParser Statement := do
  let _ ← expect .add "expect token type add"
  let _ ← expect .strategy "expect token type strategy"
  let _ ← expect .fromT "expect token type from"
  let _ ← expect .file "expect token type file"
  let fileName ← expect .string "expect file name to be string"
  return .addHftStrategy fileName.value

def parseAddHftIndicatorStatement : TokenParser Statement := do
  let _ ← expect .add "expected token type add"
  let _ ← expect .hft "expect token type HFT"
  if ← accept .indicator then
    let _ ← expect .fromT "expect token type from"
    let _ ← expect .file "expect token type file"
    let file ← expect .string "expect a file path in string "
    let _ ← expect .semicolon "expected token ;"
    return .addHftIndicator file.value
  else throw (.runtimeError "Expected INDICATOR keyword".toList)

/-! ### The choice of a statement -/

/-- What `parse` comes to: a statement for its handler, or an answer. -/
inductive Reply where
  | statement (stmt : Statement)
  | answer (text : Text)

/-- `err.what()`. -/
def what : Fault → Text
  | .runtimeError what => what
  | .invalidArgument | .outOfRange => "stoi".toList
  | .lengthError | .undefined => []

/-- The answer to a statement that fails. -/
def failure (error : Text) : Text :=
  "\x7b\"success\": false, \"error\": \"\x1b[31m".toList ++ error ++ "\x1b[0m\"\x7d".toList

/-- A branch of `parse` that catches what its parser throws. -/
def caught (tokens : List Token) (parser : TokenParser Statement) : Except Fault Reply :=
  match parser tokens with
  | .ok (stmt, _) => .ok (.statement stmt)
  | .error .undefined => .error .undefined
  | .error fault => .ok (.answer (failure (what fault)))

/-- A branch of `parse` that does not. -/
def thrown (tokens : List Token) (parser : TokenParser Statement) : Except Fault Reply :=
  (parser tokens).map fun r => .statement r.1

/-- The branches of `parse` for all other statements. Behind FETCH without INDICATOR the function
ends without a result. -/
def otherBranch (currentDb : Option Text) (tokens : List Token) : Except Fault Reply :=
  match tokens.map Token.type with
  | .create :: _ => caught tokens (parseCreateStatement currentDb)
  | .set :: _ => return .answer (failure "no such command exist".toList)
  | .statistics :: _ => caught tokens parseStatisticsStatement
  | .enable :: _ => caught tokens parseEnableStatement
  | .list :: _ => caught tokens parseListStatement
  | .fetch :: _ => throw .undefined
  | .apply :: _ => thrown tokens parseWebSocketCommand
  | .insert :: _ => caught tokens parseInsertStatement
  | .select :: _ => caught tokens do return .select (← parseSelectStatement currentDb)
  | .drop :: _ => caught tokens (parseDropStatement currentDb)
  | .use :: _ => caught tokens parseUseStatement
  | .delete :: _ => caught tokens parseDeleteStatement
  | .update :: _ => caught tokens parseUpdateStatement
  | .memory :: .get :: _ => caught tokens parseGetMemoryStatement
  | .memory :: _ => caught tokens parseMemoryStatement
  | .add :: .strategy :: _ => thrown tokens parseAddHftStrategyStatement
  | .add :: _ => caught tokens parseAddHftIndicatorStatement
  | _ => throw (.runtimeError ("Unsupported SQL statement or missing statement " ++
      "type (CREATE, INSERT, SELECT, DROP, USE, MEMORY)").toList)

def Statement.parse (currentDb : Option Text) (tokens : List Token) : Except Fault Reply := do
  match ← Sql.parse currentDb tokens with
  | some stmt => return .statement (.hft stmt)
  | none => otherBranch currentDb tokens

/-- What the server makes of a text. -/
def readStatement (currentDb : Option Text) (sql : Text) : Except Fault Reply := do
  Statement.parse currentDb (← tokenize sql)

end NanoVault.Sql
